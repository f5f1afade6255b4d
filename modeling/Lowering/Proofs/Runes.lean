import Mathlib.Data.List.Basic
import Lowering.Text.Stray

/-! The characters that bytes are. Bytes that are part of no character count one by one. Characters of one byte
keep apart what stands on their two sides, so that bytes can be counted piece by piece. -/

namespace Lowering.Proofs
open Text

/-- How many characters bytes are: those that they encode, and every byte that is part of none. -/
inductive Runes : List UInt8 → Nat → Prop
  | nil : Runes [] 0
  | char (c : Char) {rest : List UInt8} {n : Nat} : Runes rest n →
    Runes (String.utf8EncodeChar c ++ rest) (n + 1)
  | stray {b : UInt8} {rest : List UInt8} {n : Nat} :
    (∀ c more, b :: rest ≠ String.utf8EncodeChar c ++ more) → Runes rest n → Runes (b :: rest) (n + 1)

variable {bs rest more : List UInt8} {c d : Char} {m n : Nat}

private theorem toList_loop (bs : ByteArray) (i : Nat) (read : List UInt8) :
    ByteArray.toList.loop bs i read = read.reverse ++ bs.data.toList.drop i := by
  fun_induction ByteArray.toList.loop bs i read with
  | case1 i read less ih =>
    have inside : i < bs.data.toList.length := by simpa using less
    have byte : bs.get! i = bs.data.toList[i] := by
      rw [Array.getElem_toList]
      exact getElem!_pos bs.data i (by simpa using less)
    rw [ih, List.drop_eq_getElem_cons inside, byte, List.reverse_cons, List.append_assoc,
      List.singleton_append]
  | case2 i read past =>
    have all : bs.data.toList.length ≤ i := by simpa using past
    rw [List.drop_eq_nil_of_le all, List.append_nil]

theorem toUTF8_singleton (c : Char) :
    (String.singleton c).toUTF8.toList = String.utf8EncodeChar c := by
  rw [String.toUTF8, String.toByteArray_singleton, List.utf8Encode_singleton, ByteArray.toList, toList_loop]
  simp

theorem bytes_plain {s : String} (plain : hasStray s = false) :
    bytes s = s.toList.flatMap String.utf8EncodeChar := by
  rw [bytes, List.flatMap_def, List.flatMap_def]
  apply congrArg List.flatten
  apply List.map_congr_left
  intro c member
  have ordinary : strayByte? c = none := by
    rw [hasStray, List.any_eq_false] at plain
    simpa using plain c member
  rw [ordinary]
  exact toUTF8_singleton c

theorem fromUTF8?_iff {s : String} : String.fromUTF8? (ByteArray.mk bs.toArray) = some s ↔
    bs = s.toList.flatMap String.utf8EncodeChar := by
  have array : ByteArray.mk bs.toArray = bs.toByteArray := ByteArray.ext List.data_toByteArray.symm
  have encoded : s.toByteArray = (s.toList.flatMap String.utf8EncodeChar).toByteArray := by
    rw [← String.utf8Encode_toList, List.utf8Encode]
  rw [array, ← List.toByteArray_inj, ← encoded, String.fromUTF8?]
  constructor
  · intro read
    split at read
    · cases read
      rfl
    · cases read
  · intro same
    rw [same, dif_pos s.isValidUTF8]
    rfl

private theorem encode_unique (same : String.utf8EncodeChar c ++ rest = String.utf8EncodeChar d ++ more) :
    c = d ∧ rest = more := by
  have reads : ∀ (c : Char) (rest : List UInt8),
      (String.utf8EncodeChar c ++ rest).toByteArray.utf8DecodeChar? 0 = some c := by
    intro c rest
    rw [List.toByteArray_append, ByteArray.utf8DecodeChar?_utf8EncodeChar_append]
  have equal : c = d := Option.some.inj ((reads c rest).symm.trans (same ▸ reads d more))
  exact ⟨equal, List.append_cancel_left (equal ▸ same)⟩

/-- The character that the first few bytes start with. -/
private def charWithin (bs : List UInt8) (n : Nat) : Option (Char × List UInt8) :=
  if bs.length < n then none
  else match String.fromUTF8? (ByteArray.mk (bs.take n).toArray) with
    | some s => s.toList.head?.map fun c => (c, bs.drop n)
    | none => none

private theorem charWithin_iff : charWithin bs n = some (c, rest) ↔
    ∃ others : List Char, bs = String.utf8EncodeChar c ++ others.flatMap String.utf8EncodeChar ++ rest ∧
      (String.utf8EncodeChar c ++ others.flatMap String.utf8EncodeChar).length = n := by
  rw [charWithin]
  constructor
  · intro found
    split at found
    · cases found
    next long =>
      split at found
      next s read =>
        obtain ⟨first, head, same⟩ := Option.map_eq_some_iff.mp found
        cases same
        obtain ⟨others, chars⟩ := List.head?_eq_some_iff.mp head
        have front := fromUTF8?_iff.mp read
        rw [chars, List.flatMap_cons] at front
        refine ⟨others, ?_, ?_⟩
        · rw [← front, List.take_append_drop]
        · rw [← front, List.length_take]
          omega
      · cases found
  · rintro ⟨others, rfl, rfl⟩
    have read : String.fromUTF8? (ByteArray.mk
        (String.utf8EncodeChar c ++ others.flatMap String.utf8EncodeChar).toArray) =
          some (String.ofList (c :: others)) := by
      rw [fromUTF8?_iff, String.toList_ofList, List.flatMap_cons]
    rw [if_neg (by simp), List.take_left, read, List.drop_left]
    simp only [String.toList_ofList, List.head?_cons, Option.map_some]

private theorem firstChar?_iff : firstChar? bs = some (c, rest) ↔ bs = String.utf8EncodeChar c ++ rest := by
  have search : firstChar? bs = [1, 2, 3, 4].findSome? (charWithin bs) := rfl
  have known : ∀ c : Char, (String.utf8EncodeChar c).length ∈ [1, 2, 3, 4] := by
    intro c
    have positive := c.utf8Size_pos
    have small := c.utf8Size_le_four
    rw [String.length_utf8EncodeChar]
    simp only [List.mem_cons, List.not_mem_nil, or_false]
    omega
  have sound : ∀ {c rest}, firstChar? bs = some (c, rest) → bs = String.utf8EncodeChar c ++ rest := by
    intro c rest found
    obtain ⟨shorter, n, longer, sizes, here, before⟩ := List.findSome?_eq_some_iff.mp (search ▸ found)
    obtain ⟨others, whole, size⟩ := charWithin_iff.mp here
    cases others with
    | nil => simpa using whole
    | cons d others =>
      -- A shorter front would have been taken: the character alone.
      have alone : charWithin bs (String.utf8EncodeChar c).length =
          some (c, (d :: others).flatMap String.utf8EncodeChar ++ rest) :=
        charWithin_iff.mpr ⟨[], by simpa using whole, by simp⟩
      have less : (String.utf8EncodeChar c).length < n := by
        have positive := d.utf8Size_pos
        rw [← size, List.flatMap_cons, List.length_append, List.length_append, String.length_utf8EncodeChar d]
        omega
      have sorted : (shorter ++ n :: longer).Pairwise (· < ·) := sizes ▸ (by decide)
      have above := (List.pairwise_cons.mp (List.pairwise_append.mp sorted).2.1).1
      have place := sizes ▸ known c
      rw [List.mem_append, List.mem_cons] at place
      rcases place with earlier | here | later
      · rw [before _ earlier] at alone
        cases alone
      · omega
      · have greater := above _ later
        omega
  refine ⟨sound, fun whole => ?_⟩
  have here : charWithin bs (String.utf8EncodeChar c).length = some (c, rest) :=
    charWithin_iff.mpr ⟨[], by simpa using whole, by simp⟩
  obtain ⟨⟨d, more⟩, found⟩ : ∃ first, firstChar? bs = some first := by
    rw [← Option.isSome_iff_exists, search, List.findSome?_isSome_iff]
    exact ⟨_, known c, by rw [here]; rfl⟩
  obtain ⟨rfl, rfl⟩ := encode_unique (whole.symm.trans (sound found))
  exact found

theorem Runes.unique (first : Runes bs m) (second : Runes bs n) : m = n := by
  induction first generalizing n with
  | nil =>
    generalize none : ([] : List UInt8) = bs at second
    cases second with
    | nil => rfl
    | char c => exact absurd (List.append_eq_nil_iff.mp none.symm).1 String.utf8EncodeChar_ne_nil
    | stray => cases none
  | char c _ ih =>
    generalize whole : String.utf8EncodeChar c ++ _ = bs at second
    cases second with
    | nil => exact absurd (List.append_eq_nil_iff.mp whole).1 String.utf8EncodeChar_ne_nil
    | char d later =>
      obtain ⟨rfl, rfl⟩ := encode_unique whole
      rw [ih later]
    | stray alone => exact absurd whole.symm (alone c _)
  | stray alone _ ih =>
    generalize whole : _ :: _ = bs at second
    cases second with
    | nil => cases whole
    | char d => exact absurd whole (alone d _)
    | stray _ later =>
      cases whole
      rw [ih later]

private theorem first_of_single {x : UInt8} {front back : List UInt8} (single : String.utf8EncodeChar c = [x])
    (inside : String.utf8EncodeChar d = front ++ x :: back) : front = [] := by
  have starts : x.IsUTF8FirstByte := by
    have own := UInt8.isUTF8FirstByte_getElem_zero_utf8EncodeChar (c := c)
    simp only [single] at own
    exact own
  have bound : front.length < (String.utf8EncodeChar d).length := by simp [inside]
  have byte : (String.utf8EncodeChar d)[front.length] = x := by simp [inside]
  exact List.length_eq_zero_iff.mp (UInt8.isUTF8FirstByte_getElem_utf8EncodeChar.mp (byte ▸ starts))

/-- A character of one byte keeps apart what stands on its two sides. -/
theorem Runes.append {x : UInt8} (single : String.utf8EncodeChar c = [x]) (first : Runes bs m)
    (second : Runes rest n) : Runes (bs ++ x :: rest) (m + 1 + n) := by
  induction first with
  | nil =>
    have here := second.char c
    rwa [single, List.singleton_append, Nat.add_comm, ← Nat.zero_add 1] at here
  | char d _ ih =>
    rw [List.append_assoc, Nat.add_right_comm _ 1 1, Nat.add_right_comm _ 1 n]
    exact ih.char d
  | @stray b others _ alone _ ih =>
    rw [Nat.add_right_comm _ 1 1, Nat.add_right_comm _ 1 n]
    refine .stray (fun d more whole => ?_) ih
    have parts : (b :: others) ++ x :: rest = String.utf8EncodeChar d ++ more := whole
    rcases List.append_eq_append_iff.mp parts with ⟨back, inside, front⟩ | ⟨back, inside, _⟩
    · cases back with
      | nil => exact alone d [] (by simpa using inside.symm)
      | cons y back =>
        cases front
        cases first_of_single single inside
    · exact alone d back inside

theorem runes_chars (chars : List Char) : Runes (chars.flatMap String.utf8EncodeChar) chars.length := by
  induction chars with
  | nil => exact .nil
  | cons c chars ih => exact ih.char c

theorem runes_runesOfBytes {fuel : Nat} (enough : bs.length ≤ fuel) :
    Runes bs (runesOfBytes fuel bs).length := by
  induction fuel generalizing bs with
  | zero =>
    rw [List.length_eq_zero_iff.mp (Nat.le_zero.mp enough)]
    exact .nil
  | succ fuel ih =>
    cases bs with
    | nil => exact .nil
    | cons b rest =>
      rw [runesOfBytes]
      split
      next c more found =>
        have whole := firstChar?_iff.mp found
        have positive := c.utf8Size_pos
        rw [whole]
        refine (ih ?_).char c
        rw [whole, List.length_append, String.length_utf8EncodeChar] at enough
        omega
      next none =>
        refine .stray (fun c more whole => ?_) (ih (by simpa using enough))
        rw [firstChar?_iff.mpr whole] at none
        cases none

theorem runes_text (s : String) : Runes (bytes s) (runes s).length := by
  rw [runes]
  split
  · exact runes_runesOfBytes (Nat.le_refl _)
  next plain =>
    rw [bytes_plain (by simpa using plain), List.length_map]
    exact runes_chars _

private theorem strayByte?_stray {b : UInt8} (high : 0x80 ≤ b) : strayByte? (stray b) = some b := by
  have low : 128 ≤ b.toNat := UInt8.le_iff_toNat_le.mp high
  have small := b.toNat_lt
  have number : (stray b).toNat = strayArea + b.toNat := by
    have valid : (strayArea + b.toNat).isValidChar := .inr ⟨by rw [strayArea]; omega, by rw [strayArea]; omega⟩
    rw [stray, Char.ofNat, dif_pos valid]
    rfl
  have inside : (strayArea + 0x80 ≤ (stray b).toNat && (stray b).toNat ≤ strayArea + 0xff) = true := by
    simp only [number, Bool.and_eq_true, decide_eq_true_eq]
    omega
  rw [strayByte?, if_pos inside, number, Nat.add_sub_cancel_left, UInt8.ofNat_toNat]

private theorem high_of_area (area : (strayByte? c).isSome) {b : UInt8} (member : b ∈ String.utf8EncodeChar c) :
    0x80 ≤ b := by
  have bounds : 0x10f080 ≤ c.toNat ∧ c.toNat ≤ 0x10f0ff := by
    unfold strayByte? at area
    split at area
    next inside =>
      rw [Bool.and_eq_true, decide_eq_true_eq, decide_eq_true_eq] at inside
      exact inside
    · cases area
  have value : c.val.toNat = c.toNat := rfl
  unfold String.utf8EncodeChar at member
  dsimp only at member
  rw [value, if_neg (by omega), if_neg (by omega), if_neg (by omega)] at member
  simp only [List.mem_cons, List.not_mem_nil, or_false] at member
  rw [UInt8.le_iff_toNat_le]
  rcases member with rfl | rfl | rfl | rfl <;>
    simp only [UInt8.toNat_ofNat', UInt8.reduceToNat] <;> omega

private theorem bytes_kept_char (c : Char) :
    bytes (String.ofList (Rune.char c).kept) = String.utf8EncodeChar c := by
  rw [bytes, String.toList_ofList, Rune.kept]
  split
  next area =>
    rw [List.flatMap_map]
    conv => rhs; rw [← List.flatMap_singleton' (String.utf8EncodeChar c)]
    rw [List.flatMap_def, List.flatMap_def]
    refine congrArg List.flatten (List.map_congr_left fun b member => ?_)
    rw [strayByte?_stray (high_of_area area member)]
  next ordinary =>
    rw [List.flatMap_singleton, Option.not_isSome_iff_eq_none.mp ordinary]
    exact toUTF8_singleton c

theorem bytes_kept (t : String) : bytes (kept t) = t.toList.flatMap String.utf8EncodeChar := by
  unfold kept
  split
  · have append : ∀ cs : List Char, bytes (String.ofList (cs.flatMap fun c => (Rune.char c).kept)) =
        cs.flatMap String.utf8EncodeChar := by
      intro cs
      induction cs with
      | nil => rfl
      | cons c cs ih =>
        have first := bytes_kept_char c
        simp only [bytes, String.toList_ofList, List.flatMap_cons, List.flatMap_append] at first ih ⊢
        rw [first, ih]
    exact append t.toList
  next plain => exact bytes_plain (by simpa using plain)

theorem fromUTF8?_kept (t : String) : String.fromUTF8? (ByteArray.mk (bytes (kept t)).toArray) = some t :=
  fromUTF8?_iff.mpr (bytes_kept t)

end Lowering.Proofs

import Mathlib
import Lowering.Version

/-! Texts of versions. A version is read from exactly the texts of a grammar, in which white space may stand
around and a `v` in front, and the text of a version is read back. The text of a version with a negative number
is no version. -/

namespace Lowering.Proofs
open Version Text

/-- A number in decimals, without leading zeros. -/
structure Numeral (cs : List Char) : Prop where
  present : cs ≠ []
  digits : ∀ c ∈ cs, c.isDigit
  leading : cs.head? = some '0' → cs = ['0']

/-- An identifier of a pre-release or a build. -/
structure Identifier (cs : List Char) : Prop where
  present : cs ≠ []
  letters : ∀ c ∈ cs, c.isAlphanum ∨ c = '-'

/-- In a pre-release, identifiers that are numbers have no leading zeros. -/
def ReleaseIdentifier (cs : List Char) : Prop := Identifier cs ∧ ((∀ c ∈ cs, c.isDigit) → Numeral cs)

/-- Identifiers with dots between them. -/
inductive Series (part : List Char → Prop) : List Char → Prop
  | last {cs : List Char} : part cs → Series part cs
  | more {cs rest : List Char} : part cs → Series part rest → Series part (cs ++ '.' :: rest)

/-- A series behind a mark, or nothing. -/
inductive Addendum (mark : Char) (part : List Char → Prop) : List Char → Prop
  | absent : Addendum mark part []
  | present {cs : List Char} : Series part cs → Addendum mark part (mark :: cs)

/-- The texts of versions, with the decimals of the two numbers that count. -/
inductive VersionForm : List Char → List Char → List Char → Prop
  | one {major : List Char} : Numeral major → VersionForm major major ['0']
  | two {major minor : List Char} : Numeral major → Numeral minor →
    VersionForm (major ++ '.' :: minor) major minor
  | three {major minor patch release build : List Char} : Numeral major → Numeral minor → Numeral patch →
    Addendum '-' ReleaseIdentifier release → Addendum '+' Identifier build →
    VersionForm (major ++ '.' :: (minor ++ '.' :: (patch ++ (release ++ build)))) major minor

/-- A text stands for a version: it has the form of one, and its numbers are those of the version. -/
def Spells (text : String) (v : Version) : Prop :=
  ∃ before form after major minor, (text.toList = before ++ form ++ after ∨
      text.toList = before ++ 'v' :: form ++ after) ∧
    (∀ c ∈ before, isBlank c) ∧ (∀ c ∈ after, isBlank c) ∧ VersionForm form major minor ∧
    v.major.toInt = Nat.ofDigitChars 10 major 0 ∧ v.minor.toInt = Nat.ofDigitChars 10 minor 0

/-- What is assumed of a library for semantic versions: the texts that are valid are a `v` with the form of a
version, and of these it finds the two numbers that count. -/
structure Documented (semver : Semver) : Prop where
  valid : ∀ cs, semver.isValid cs = true ↔ ∃ form major minor, cs = 'v' :: form ∧ VersionForm form major minor
  majorMinor : ∀ {form major minor}, VersionForm form major minor →
    semver.majorMinor ('v' :: form) = 'v' :: (major ++ '.' :: minor)

variable {cs rest digits major minor : List Char} {v : Version}

private theorem isDigit_eq (c : Char) : Version.isDigit c = c.isDigit := rfl

/-- The characters of which versions consist. -/
private def IsPlain (c : Char) : Prop := c.isAlphanum ∨ c = '-' ∨ c = '.' ∨ c = '+'

private theorem isPlain_of_isDigit {c : Char} (digit : c.isDigit) : IsPlain c :=
  .inl (by simp [Char.isAlphanum, digit])

private theorem not_isBlank {c : Char} (plain : IsPlain c) : isBlank c = false := by
  rcases plain with alphanumeric | rfl | rfl | rfl
  · simp only [Char.isAlphanum, Char.isAlpha, Char.isUpper, Char.isLower, Char.isDigit, Bool.or_eq_true,
      Bool.and_eq_true, decide_eq_true_eq, ge_iff_le, UInt32.le_iff_toNat_le] at alphanumeric
    have value : c.toNat = c.val.toNat := rfl
    have bounds : 48 ≤ c.toNat ∧ c.toNat ≤ 122 := by
      rcases alphanumeric with (⟨low, high⟩ | ⟨low, high⟩) | ⟨low, high⟩ <;>
        simp only [Char.reduceVal, UInt32.reduceToNat] at low high <;> omega
    simp only [isBlank, Bool.or_eq_false_iff, Bool.and_eq_false_iff, decide_eq_false_iff_not]
    omega
  all_goals decide

/-- A text that does not go on with a digit. -/
private def StopsDigits (cs : List Char) : Prop := ∀ c, cs.head? = some c → c.isDigit = false

private theorem span_append {p : Char → Bool} {front back : List Char} (all : ∀ c ∈ front, p c)
    (stops : ∀ c, back.head? = some c → p c = false) :
    (front ++ back).takeWhile p = front ∧ (front ++ back).dropWhile p = back := by
  rw [List.takeWhile_append_of_pos all, List.dropWhile_append_of_pos all]
  cases back with
  | nil => simp
  | cons c back => simp [stops c rfl]

private theorem number?_iff : number? cs = some (digits, rest) ↔
    Numeral digits ∧ cs = digits ++ rest ∧ StopsDigits rest := by
  constructor
  · intro found
    rw [number?] at found
    split at found
    · cases found
    · cases found
    next absent padded =>
      cases found
      refine ⟨⟨absent, fun c member => List.mem_takeWhile_imp member, fun zero => ?_⟩,
        List.takeWhile_append_dropWhile.symm, fun c head => ?_⟩
      · cases taken : cs.takeWhile Version.isDigit with
        | nil => exact absurd taken absent
        | cons c more =>
          rw [taken] at zero padded
          cases zero
          cases more with
          | nil => rfl
          | cons d more => exact (padded d more rfl).elim
      · have stops := List.head?_dropWhile_not Version.isDigit cs
        rw [head] at stops
        exact stops
  · rintro ⟨⟨present, all, leading⟩, rfl, ends⟩
    obtain ⟨taken, dropped⟩ := span_append (p := Version.isDigit) all ends
    rw [number?, taken, dropped]
    split
    · exact absurd rfl present
    next second more => cases leading rfl
    · rfl

private theorem Numeral.number? (numeral : Numeral digits) (ends : StopsDigits rest) :
    number? (digits ++ rest) = some (digits, rest) := number?_iff.mpr ⟨numeral, rfl, ends⟩

private theorem Numeral.number?_all (numeral : Numeral digits) : Version.number? digits = some (digits, []) :=
  number?_iff.mpr ⟨numeral, (List.append_nil _).symm, nofun⟩

private theorem ends_dot : StopsDigits ('.' :: rest) := by
  rintro c ⟨⟩
  rfl

private theorem head?_toDigits (n : Nat) (positive : 0 < n) : (Nat.toDigits 10 n).head? ≠ some '0' := by
  induction n using Nat.strongRecOn with
  | ind n ih =>
    by_cases small : n < 10
    · have digit : ∀ d < 10, 0 < d → Nat.digitChar d ≠ '0' := by decide
      rw [Nat.toDigits_of_lt_base small, List.head?_cons, ne_eq, Option.some.injEq]
      exact digit n small positive
    · rw [Nat.toDigits_of_base_le (by decide) (by omega), List.head?_append,
        List.head?_eq_some_head Nat.toDigits_ne_nil, Option.some_or, ← List.head?_eq_some_head]
      exact ih (n / 10) (by omega) (by omega)

private theorem numeral_toDigits (n : Nat) : Numeral (Nat.toDigits 10 n) where
  present := Nat.toDigits_ne_nil
  digits c member := Nat.isDigit_of_mem_toDigits (by decide) (by decide) member
  leading zero := by
    rcases Nat.eq_zero_or_pos n with rfl | positive
    · exact Nat.toDigits_zero 10
    · exact absurd zero (head?_toDigits n positive)

private theorem word?_iff {m : Int} {n : Int64} : word? m = some n ↔ n.toInt = m := by
  have low := n.le_toInt
  have high := n.toInt_lt
  simp only [word?, Bool.and_eq_true, decide_eq_true_eq, Option.ite_none_right_eq_some, Option.some.injEq]
  constructor
  · rintro ⟨⟨least, greatest⟩, rfl⟩
    simp only [leastWord, greatestWord] at least greatest
    exact Int64.toInt_ofInt_of_le (by omega) (by omega)
  · rintro rfl
    exact ⟨by simp only [leastWord, greatestWord]; omega, Int64.ofInt_toInt n⟩

private theorem ofDigitChars_ge (digits : List Char) (n : Nat) : n ≤ Nat.ofDigitChars 10 digits n := by
  induction digits generalizing n with
  | nil => exact Nat.le_refl n
  | cons c digits ih =>
    rw [Nat.ofDigitChars_cons]
    exact Nat.le_trans (by omega) (ih _)

private theorem digitsFrom_eq (all : ∀ c ∈ digits, c.isDigit) {n : Nat} (small : n < UInt64.size) :
    Decimal.digitsFrom n digits = if Nat.ofDigitChars 10 digits n < UInt64.size then
      .ok (Nat.ofDigitChars 10 digits n) else .error .range := by
  induction digits generalizing n with
  | nil => rw [Decimal.digitsFrom, Nat.ofDigitChars_nil, if_pos small]
  | cons c digits ih =>
    obtain ⟨digit, others⟩ := List.forall_mem_cons.mp all
    have next : Nat.ofDigitChars 10 (c :: digits) n = Nat.ofDigitChars 10 digits (10 * n + (c.toNat - 48)) :=
      Nat.ofDigitChars_cons
    rw [Decimal.digitsFrom, digit, next]
    by_cases large : UInt64.size ≤ 10 * n + (c.toNat - 48)
    · have above := Nat.le_trans large (ofDigitChars_ge digits _)
      simp [large, Nat.not_lt.mpr above]
    · simp [large, ih others (Nat.not_le.mp large)]

private theorem decimalInteger_iff {n : Int64} (numeral : Numeral digits) :
    Decimal.decimalInteger digits = .ok n ↔ n.toInt = Nat.ofDigitChars 10 digits 0 := by
  obtain ⟨c, more, rfl⟩ := List.exists_cons_of_ne_nil numeral.present
  have digit := numeral.digits c List.mem_cons_self
  have high := n.toInt_lt
  have sign : Decimal.signed (c :: more) = (false, c :: more) := by
    unfold Decimal.signed
    split
    next same => cases same; exact absurd digit (by decide)
    next same => cases same; exact absurd digit (by decide)
    · rfl
  have total := digitsFrom_eq numeral.digits (n := 0) (by decide)
  rw [Decimal.decimalInteger, sign]
  dsimp only
  rw [if_neg (by simp), total]
  by_cases small : Nat.ofDigitChars 10 (c :: more) 0 < UInt64.size
  · rw [if_pos small]
    simp only [Bool.false_eq_true, if_false]
    rw [← word?_iff]
    cases word? (Nat.ofDigitChars 10 (c :: more) 0 : Int) <;> simp
  · rw [if_neg small]
    simp only [reduceCtorEq, false_iff]
    simp only [UInt64.size] at small
    omega

private theorem dotted_ne_nil (cs : List Char) : dotted cs ≠ [] := by
  cases cs with
  | nil => simp [dotted]
  | cons c rest =>
    rw [dotted]
    split
    · simp
    · split <;> simp

private theorem dotted_free {part : List Char} (free : '.' ∉ part) : dotted part = [part] := by
  induction part with
  | nil => rfl
  | cons c part ih =>
    rw [List.mem_cons, not_or] at free
    rw [dotted, ih free.2]
    exact if_neg (Ne.symm free.1)

private theorem dotted_append {part : List Char} (free : '.' ∉ part) :
    dotted (part ++ '.' :: rest) = part :: dotted rest := by
  induction part with
  | nil =>
    rw [List.nil_append, dotted]
    split
    next none => exact absurd none (dotted_ne_nil rest)
    next first others parts => rw [parts]; rfl
  | cons c part ih =>
    rw [List.mem_cons, not_or] at free
    rw [List.cons_append, dotted, ih free.2]
    exact if_neg (Ne.symm free.1)

private theorem series_iff {part : List Char → Prop} (free : ∀ cs, part cs → '.' ∉ cs) :
    Series part cs ↔ ∀ p ∈ dotted cs, part p := by
  constructor
  · intro series
    induction series with
    | last first => rw [dotted_free (free _ first)]; simpa using first
    | more first _ ih => rw [dotted_append (free _ first)]; exact List.forall_mem_cons.mpr ⟨first, ih⟩
  · intro all
    induction length : cs.length using Nat.strongRecOn generalizing cs with
    | ind n ih =>
      by_cases dot : '.' ∈ cs
      · obtain ⟨first, rest, rfl, here⟩ := List.eq_append_cons_of_mem dot
        rw [dotted_append here, List.forall_mem_cons] at all
        refine .more all.1 (ih rest.length ?_ all.2 rfl)
        simp only [List.length_append, List.length_cons] at length
        omega
      · rw [dotted_free dot] at all
        exact .last (all cs List.mem_cons_self)

private theorem isIdentifier_iff : isIdentifier cs = true ↔ Identifier cs := by
  simp only [isIdentifier, isIdentifierChar, Bool.and_eq_true, Bool.not_eq_true', List.isEmpty_eq_false_iff,
    List.all_eq_true, Bool.or_eq_true, decide_eq_true_eq]
  exact ⟨fun ⟨present, letters⟩ => ⟨present, letters⟩, fun ⟨present, letters⟩ => ⟨present, letters⟩⟩

private theorem hasLeadingZero_iff (present : cs ≠ []) :
    hasLeadingZero cs = false ↔ ((∀ c ∈ cs, c.isDigit) → Numeral cs) := by
  have padded : hasLeadingZero cs = true ↔ (∀ c ∈ cs, c.isDigit) ∧ 1 < cs.length ∧ cs.head? = some '0' := by
    simp only [hasLeadingZero, Bool.and_eq_true, List.all_eq_true, isDigit_eq, decide_eq_true_eq, gt_iff_lt,
      beq_iff_eq, and_assoc]
  rw [← Bool.not_eq_true, padded]
  constructor
  · intro unpadded digits
    refine ⟨present, digits, fun zero => ?_⟩
    have short : ¬ 1 < cs.length := fun long => unpadded ⟨digits, long, zero⟩
    match cs with
    | [c] => simpa using zero
    | _ :: _ :: _ => simp at short
  · rintro numeral ⟨digits, long, zero⟩
    rw [(numeral digits).leading zero] at long
    exact absurd long (by decide)

private theorem Identifier.free (identifier : Identifier cs) : '.' ∉ cs := fun member =>
  absurd (identifier.letters '.' member) (by decide)

private theorem isBuild_iff : isBuild cs = true ↔ Series Identifier cs := by
  simp only [isBuild, List.all_eq_true, isIdentifier_iff, series_iff fun _ => Identifier.free]

private theorem isPreRelease_iff : isPreRelease cs = true ↔ Series ReleaseIdentifier cs := by
  simp only [isPreRelease, List.all_eq_true, Bool.and_eq_true, Bool.not_eq_true', isIdentifier_iff,
    series_iff fun _ (given : ReleaseIdentifier _) => given.1.free, ReleaseIdentifier]
  exact forall₂_congr fun _ _ => and_congr_right fun identifier => hasLeadingZero_iff identifier.present

private theorem Series.plain {part : List Char → Prop} (series : Series part cs)
    (identifier : ∀ cs, part cs → Identifier cs) : ∀ c ∈ cs, IsPlain c ∧ c ≠ '+' := by
  have letters : ∀ {cs}, part cs → ∀ c ∈ cs, IsPlain c ∧ c ≠ '+' := by
    intro cs given c member
    rcases (identifier cs given).letters c member with alphanumeric | rfl
    · refine ⟨.inl alphanumeric, ?_⟩
      rintro rfl
      exact absurd alphanumeric (by decide)
    · exact ⟨.inr (.inl rfl), by decide⟩
  induction series with
  | last given => exact letters given
  | more given _ ih =>
    rw [List.forall_mem_append, List.forall_mem_cons]
    exact ⟨letters given, ⟨.inr (.inr (.inl rfl)), by decide⟩, ih⟩

private theorem isSuffix_iff : isSuffix cs = true ↔ ∃ release build, cs = release ++ build ∧
    Addendum '-' ReleaseIdentifier release ∧ Addendum '+' Identifier build := by
  constructor
  · intro suffix
    rw [isSuffix, Bool.and_eq_true] at suffix
    obtain ⟨first, second⟩ := suffix
    refine ⟨cs.takeWhile (· != '+'), cs.dropWhile (· != '+'), List.takeWhile_append_dropWhile.symm, ?_, ?_⟩
    · revert first
      split
      next none => rw [none]; exact fun _ => .absent
      next rest found => rw [found]; exact fun release => .present (isPreRelease_iff.mp release)
      next => exact nofun
    · have mark := List.head?_dropWhile_not (· != '+') cs
      revert second mark
      split
      next none => rw [none]; exact fun _ _ => .absent
      next c rest found =>
        intro build mark
        simp only [found, List.head?_cons, bne_eq_false_iff_eq] at mark
        rw [found, mark]
        exact .present (isBuild_iff.mp build)
  · rintro ⟨release, build, rfl, first, second⟩
    have before : ∀ c ∈ release, (c != '+') = true := by
      cases first with
      | absent => exact nofun
      | present series =>
        rw [List.forall_mem_cons]
        exact ⟨by decide, fun c member => bne_iff_ne.mpr (series.plain (fun _ => And.left) c member).2⟩
    have stops : ∀ c, build.head? = some c → (c != '+') = false := by
      cases second with
      | absent => exact nofun
      | present => rintro c ⟨⟩; decide
    obtain ⟨taken, dropped⟩ := span_append (p := (· != '+')) before stops
    rw [isSuffix, taken, dropped, Bool.and_eq_true]
    constructor
    · cases first with
      | absent => rfl
      | present series => exact isPreRelease_iff.mpr series
    · cases second with
      | absent => rfl
      | present series => exact isBuild_iff.mpr series

private theorem Addendum.plain {mark : Char} {part : List Char → Prop} (addendum : Addendum mark part cs)
    (identifier : ∀ cs, part cs → Identifier cs) (plain : IsPlain mark) : ∀ c ∈ cs, IsPlain c := by
  cases addendum with
  | absent => exact nofun
  | present series =>
    exact List.forall_mem_cons.mpr ⟨plain, fun c member => (series.plain identifier c member).1⟩

private theorem addenda_end {release build : List Char} (first : Addendum '-' ReleaseIdentifier release)
    (second : Addendum '+' Identifier build) : StopsDigits (release ++ build) := by
  cases first with
  | present => rintro c ⟨⟩; rfl
  | absent =>
    cases second with
    | present => rintro c ⟨⟩; rfl
    | absent => exact nofun

private theorem numbers?_iff : numbers? cs = some (major, minor) ↔ VersionForm cs major minor := by
  constructor
  · intro found
    rw [numbers?] at found
    split at found
    · cases found
    next one =>
      cases found
      obtain ⟨first, rfl, _⟩ := number?_iff.mp one
      rw [List.append_nil]
      exact .one first
    next one =>
      obtain ⟨first, rfl, _⟩ := number?_iff.mp one
      split at found
      · cases found
      next two =>
        cases found
        obtain ⟨second, rfl, _⟩ := number?_iff.mp two
        rw [List.append_nil]
        exact .two first second
      next two =>
        obtain ⟨second, rfl, _⟩ := number?_iff.mp two
        split at found
        · cases found
        next three =>
          obtain ⟨third, rfl, _⟩ := number?_iff.mp three
          split at found
          next suffix =>
            cases found
            obtain ⟨release, build, rfl, before, after⟩ := isSuffix_iff.mp suffix
            exact .three first second third before after
          · cases found
      · cases found
    · cases found
  · intro form
    cases form with
    | one first => rw [numbers?, first.number?_all]
    | two first second => rw [numbers?, first.number? ends_dot]; simp only [second.number?_all]
    | three first second third before after =>
      have suffix := isSuffix_iff.mpr ⟨_, _, rfl, before, after⟩
      rw [numbers?, first.number? ends_dot]
      simp only [second.number? ends_dot, third.number? (addenda_end before after), suffix, if_true]

private theorem VersionForm.plain (form : VersionForm cs major minor) : ∀ c ∈ cs, IsPlain c := by
  have dot : IsPlain '.' := .inr (.inr (.inl rfl))
  have numeral : ∀ {digits}, Numeral digits → ∀ c ∈ digits, IsPlain c :=
    fun numeral c member => isPlain_of_isDigit (numeral.digits c member)
  cases form with
  | one first => exact numeral first
  | two first second =>
    rw [List.forall_mem_append, List.forall_mem_cons]
    exact ⟨numeral first, dot, numeral second⟩
  | three first second third before after =>
    simp only [List.forall_mem_append, List.forall_mem_cons]
    exact ⟨numeral first, dot, numeral second, dot, numeral third,
      before.plain (fun _ => And.left) (.inr (.inl rfl)), after.plain (fun _ => id) (.inr (.inr (.inr rfl)))⟩

private theorem VersionForm.digit (form : VersionForm cs major minor) :
    ∃ c more, cs = c :: more ∧ c.isDigit := by
  have first : ∀ {digits : List Char} (rest : List Char), Numeral digits →
      ∃ c more, digits ++ rest = c :: more ∧ c.isDigit := by
    intro digits rest numeral
    obtain ⟨c, more, rfl⟩ := List.exists_cons_of_ne_nil numeral.present
    exact ⟨c, more ++ rest, rfl, numeral.digits c List.mem_cons_self⟩
  cases form with
  | one numeral => simpa using first [] numeral
  | two numeral | three numeral => exact first _ numeral

private theorem trimList_parts (cs : List Char) : ∃ before after, cs = before ++ trimList cs ++ after ∧
    (∀ c ∈ before, isBlank c) ∧ ∀ c ∈ after, isBlank c := by
  let inner := cs.dropWhile isBlank
  refine ⟨cs.takeWhile isBlank, (inner.reverse.takeWhile isBlank).reverse, ?_,
    fun _ member => List.mem_takeWhile_imp member,
    fun _ member => List.mem_takeWhile_imp (List.mem_reverse.mp member)⟩
  have tail : trimList cs ++ (inner.reverse.takeWhile isBlank).reverse = inner := by
    rw [trimList, ← List.reverse_append, List.takeWhile_append_dropWhile, List.reverse_reverse]
  rw [List.append_assoc, tail, List.takeWhile_append_dropWhile]

private theorem trimList_surrounded {before core after : List Char} (first : ∀ c ∈ before, isBlank c)
    (last : ∀ c ∈ after, isBlank c) (plain : ∀ c ∈ core, IsPlain c) (present : core ≠ []) :
    trimList (before ++ core ++ after) = core := by
  have stays : ∀ {front : List Char} (others : List Char), front ≠ [] → (∀ c ∈ front, IsPlain c) →
      ∀ c, (front ++ others).head? = some c → isBlank c = false := by
    intro front others present plain c head
    rw [List.head?_append, List.head?_eq_some_head present, Option.some_or, Option.some.injEq] at head
    exact head ▸ not_isBlank (plain _ (List.head_mem present))
  rw [trimList, List.append_assoc, (span_append first (stays after present plain)).2, List.reverse_append,
    (span_append _ _).2, List.reverse_reverse]
  · exact fun c member => last c (List.mem_reverse.mp member)
  · have stop := stays [] (List.reverse_ne_nil_iff.mpr present) fun c member => plain c (List.mem_reverse.mp member)
    rwa [List.append_nil] at stop

private theorem unmarked_or (cs : List Char) : cs = unmarked cs ∨ cs = 'v' :: unmarked cs := by
  unfold unmarked
  split
  · exact .inr rfl
  · exact .inl rfl

private theorem unmarked_form (form : VersionForm cs major minor) : unmarked cs = cs := by
  obtain ⟨c, more, rfl, digit⟩ := form.digit
  unfold unmarked
  split
  next same =>
    cases same
    exact absurd digit (by decide)
  · rfl

private theorem marked_eq (cs : List Char) : Version.marked cs = 'v' :: unmarked cs := by
  unfold Version.marked unmarked
  split <;> rfl

private theorem cut?_dot (free : '.' ∉ major) : cut? (major ++ '.' :: minor) = some (major, minor) := by
  have before : ∀ c ∈ major, decide (c ≠ '.') = true := fun c member =>
    decide_eq_true fun same => free (same ▸ member)
  have dotted : ∀ c, ('.' :: minor).head? = some c → decide (c ≠ '.') = false := by simp
  obtain ⟨taken, dropped⟩ := span_append before dotted
  rw [cut?, taken, dropped]

private theorem Numeral.free (numeral : Numeral digits) : '.' ∉ digits := fun member =>
  absurd (numeral.digits '.' member) (by decide)

private theorem VersionForm.numerals (form : VersionForm cs major minor) : Numeral major ∧ Numeral minor := by
  have zero : Numeral ['0'] := ⟨by simp, by simp, fun _ => rfl⟩
  cases form with
  | one first => exact ⟨first, zero⟩
  | two first second | three first second => exact ⟨first, second⟩

private theorem parseWith_iff {semver : Semver} (documented : Documented semver) {text : String} :
    parseWith semver text = .ok v ↔ ∃ major minor,
      VersionForm (unmarked (trimList text.toList)) major minor ∧
        v.major.toInt = Nat.ofDigitChars 10 major 0 ∧ v.minor.toInt = Nat.ofDigitChars 10 minor 0 := by
  have valid : semver.isValid ('v' :: unmarked (trimList text.toList)) = true ↔
      ∃ major minor, VersionForm (unmarked (trimList text.toList)) major minor := by
    rw [documented.valid]
    constructor
    · rintro ⟨form, major, minor, same, formed⟩
      cases same
      exact ⟨major, minor, formed⟩
    · exact fun ⟨major, minor, formed⟩ => ⟨_, major, minor, rfl, formed⟩
  rw [parseWith]
  simp only [marked_eq]
  by_cases form : ∃ major minor, VersionForm (unmarked (trimList text.toList)) major minor
  · obtain ⟨major, minor, form⟩ := form
    obtain ⟨first, second⟩ := form.numerals
    have unique : ∀ major' minor', VersionForm (unmarked (trimList text.toList)) major' minor' →
        major' = major ∧ minor' = minor := by
      intro major' minor' other
      have same := (numbers?_iff.mpr other).symm.trans (numbers?_iff.mpr form)
      simpa using same
    have numbers : (∃ major minor, VersionForm (unmarked (trimList text.toList)) major minor ∧
        v.major.toInt = Nat.ofDigitChars 10 major 0 ∧ v.minor.toInt = Nat.ofDigitChars 10 minor 0) ↔
        v.major.toInt = Nat.ofDigitChars 10 major 0 ∧ v.minor.toInt = Nat.ofDigitChars 10 minor 0 := by
      constructor
      · rintro ⟨major', minor', other, same⟩
        obtain ⟨rfl, rfl⟩ := unique _ _ other
        exact same
      · exact fun same => ⟨major, minor, form, same⟩
    rw [valid.mpr ⟨major, minor, form⟩, documented.majorMinor form, numbers, ← decimalInteger_iff first,
      ← decimalInteger_iff second]
    simp only [Bool.not_true, Bool.false_eq_true, if_false, unmarked, cut?_dot first.free]
    obtain ⟨_, _⟩ := v
    cases Decimal.decimalInteger major <;> cases Decimal.decimalInteger minor <;> simp [Except.mapError]
  · have invalid : semver.isValid ('v' :: unmarked (trimList text.toList)) = false :=
      Bool.eq_false_iff.mpr fun yes => form (valid.mp yes)
    rw [invalid]
    simp only [Bool.not_false, if_true, reduceCtorEq, false_iff]
    exact fun ⟨major, minor, other, _⟩ => form ⟨major, minor, other⟩

private theorem parseWith_spells {semver : Semver} (documented : Documented semver) {text : String} :
    parseWith semver text = .ok v ↔ Spells text v := by
  rw [parseWith_iff documented]
  constructor
  · rintro ⟨major, minor, form, first, second⟩
    obtain ⟨before, after, whole, blank, also⟩ := trimList_parts text.toList
    refine ⟨before, _, after, major, minor, ?_, blank, also, form, first, second⟩
    rcases unmarked_or (trimList text.toList) with same | marked
    · exact .inl (same ▸ whole)
    · exact .inr (marked ▸ whole)
  · rintro ⟨before, form, after, major, minor, whole, blank, also, formed, first, second⟩
    refine ⟨major, minor, ?_, first, second⟩
    obtain ⟨c, more, rfl, _⟩ := formed.digit
    rcases whole with whole | whole
    · rw [whole, trimList_surrounded blank also formed.plain nofun, unmarked_form formed]
      exact formed
    · have letter : IsPlain 'v' := .inl rfl
      have plain : ∀ d ∈ 'v' :: c :: more, IsPlain d := List.forall_mem_cons.mpr ⟨letter, formed.plain⟩
      rw [whole, trimList_surrounded blank also plain nofun]
      exact formed

private theorem decimals (n : Int) :
    (toString n).toList = (if n < 0 then ['-'] else []) ++ Nat.toDigits 10 n.natAbs := by
  cases n with
  | ofNat m =>
    change (Nat.repr m).toList = _
    have sign : ¬ Int.ofNat m < 0 := Int.not_lt.mpr (Int.natCast_nonneg m)
    rw [Nat.repr_eq_ofList_toDigits, String.toList_ofList, if_neg sign]
    rfl
  | negSucc m =>
    change ("-" ++ Nat.repr (m + 1)).toList = _
    rw [String.toList_append, Nat.repr_eq_ofList_toDigits, if_pos (Int.negSucc_lt_zero m), Int.natAbs_negSucc]
    exact congrArg ('-' :: ·) String.toList_ofList

private theorem text_toList (v : Version) :
    v.text.toList = (toString v.major.toInt).toList ++ '.' :: (toString v.minor.toInt).toList := by
  rw [Version.text, String.toList_append, String.toList_append, List.append_assoc]
  rfl

private theorem numbers?_text (v : Version) : numbers? v.text.toList =
    if 0 ≤ v.major ∧ 0 ≤ v.minor then
      some (Nat.toDigits 10 v.major.toInt.natAbs, Nat.toDigits 10 v.minor.toInt.natAbs)
    else none := by
  have minus : ∀ rest, number? ('-' :: rest) = none := fun _ => rfl
  have sign : ∀ n : Int64, 0 ≤ n ↔ ¬ n.toInt < 0 := fun n => by
    rw [Int64.le_iff_toInt_le, Int64.toInt_zero, Int.not_lt]
  simp only [text_toList, decimals, sign]
  by_cases first : v.major.toInt < 0
  · simp [first, numbers?, minus]
  · by_cases second : v.minor.toInt < 0
    · rw [if_neg first, List.nil_append, numbers?, (numeral_toDigits _).number? ends_dot]
      simp [second, minus]
    · rw [if_neg first, if_neg second, if_pos ⟨first, second⟩]
      exact numbers?_iff.mpr (.two (numeral_toDigits _) (numeral_toDigits _))

private theorem text_letters (v : Version) : ∀ c ∈ v.text.toList, c.isDigit ∨ c = '-' ∨ c = '.' := by
  have number : ∀ n : Int, ∀ c ∈ (toString n).toList, c.isDigit ∨ c = '-' ∨ c = '.' := by
    intro n c member
    rw [decimals, List.mem_append] at member
    rcases member with sign | digit
    · split at sign
      · exact .inr (.inl (List.mem_singleton.mp sign))
      · cases sign
    · exact .inl ((numeral_toDigits _).digits c digit)
  rw [text_toList, List.forall_mem_append, List.forall_mem_cons]
  exact ⟨number _, .inr (.inr rfl), number _⟩

private theorem unmarked_text (v : Version) :
    trimList v.text.toList = v.text.toList ∧ unmarked v.text.toList = v.text.toList := by
  have letters := text_letters v
  have plain : ∀ c ∈ v.text.toList, IsPlain c := fun c member =>
    (letters c member).elim isPlain_of_isDigit fun other => .inr (other.imp_right .inl)
  have present : v.text.toList ≠ [] := by simp [text_toList]
  constructor
  · simpa using @trimList_surrounded [] v.text.toList [] nofun nofun plain present
  · refine (unmarked_or _).elim Eq.symm fun marked => ?_
    have letter := letters 'v' (marked ▸ List.mem_cons_self)
    exact absurd letter (by decide)

private theorem ofDigitChars_toDigits {n : Int64} (positive : 0 ≤ n) :
    n.toInt = Nat.ofDigitChars 10 (Nat.toDigits 10 n.toInt.natAbs) 0 := by
  rw [Int64.le_iff_toInt_le, Int64.toInt_zero] at positive
  rw [Nat.ofDigitChars_ten_toDigits]
  omega

private theorem parseWith_text {semver : Semver} (documented : Documented semver) (v : Version) :
    parseWith semver v.text = if 0 ≤ v.major ∧ 0 ≤ v.minor then .ok v else .error (.malformed v.text) := by
  obtain ⟨trimmed, whole⟩ := unmarked_text v
  have form := numbers?_text v
  split
  next positive =>
    rw [if_pos positive] at form
    rw [parseWith_iff documented, trimmed, whole]
    exact ⟨_, _, numbers?_iff.mp form, ofDigitChars_toDigits positive.1, ofDigitChars_toDigits positive.2⟩
  next negative =>
    rw [if_neg negative] at form
    have invalid : semver.isValid ('v' :: v.text.toList) = false := by
      rw [Bool.eq_false_iff, ne_eq, documented.valid]
      rintro ⟨_, major, minor, same, other⟩
      cases same
      rw [numbers?_iff.mpr other] at form
      cases form
    rw [parseWith, trimmed, marked_eq, whole]
    simp only [invalid, Bool.not_false, if_true, String.ofList_toList]

theorem semver_documented : Documented semver where
  valid cs := by
    have found : ∀ form, (numbers? form).isSome = true ↔ ∃ major minor, VersionForm form major minor := by
      intro form
      simp only [Option.isSome_iff_exists, Prod.exists, numbers?_iff]
    unfold semver
    dsimp only
    split
    · rw [found]
      simp
    next other =>
      simp only [Bool.false_eq_true, false_iff]
      rintro ⟨form, _, _, rfl, _⟩
      exact other form rfl
  majorMinor form := by
    have found := numbers?_iff.mpr form
    simp only [semver, found]

/-- With a library that is as documented, a version is read from exactly the texts that stand for it. What is
printed is read back, if its numbers are not negative, and else it is no version. -/
theorem version_texts {semver : Semver} (documented : Documented semver) (text : String) (v : Version) :
    (parseWith semver text = .ok v ↔ Spells text v) ∧
      parseWith semver v.text = if 0 ≤ v.major ∧ 0 ≤ v.minor then .ok v else .error (.malformed v.text) :=
  ⟨parseWith_spells documented, parseWith_text documented v⟩

theorem release_candidate_spelled : Documented semver ∧ Spells " v3.11.0-rc.1+b.01 " ⟨3, 11⟩ := by
  have read : parseWith semver " v3.11.0-rc.1+b.01 " = .ok ⟨3, 11⟩ := by decide +kernel
  exact ⟨semver_documented, (version_texts semver_documented " v3.11.0-rc.1+b.01 " ⟨3, 11⟩).1.mp read⟩

end Lowering.Proofs

import Mathlib
import Lowering.Text.Table
import Lowering.Proofs.Runes

/-! Tables. All lines of a table show the same number of characters, whatever escape sequences or pieces of them are
in its cells, and every cell stands in its column with nothing but spaces around it. What keeps sequences from running
into each other, and stray bytes from coming together, is that no character of the frame is part of any. -/

namespace Lowering.Proofs
open Text

/-- A sequence that sets colours. -/
def IsEscape (cs : List Char) : Prop :=
  ∃ attributes : List Char, (∀ c ∈ attributes, c.isDigit ∨ c = ';') ∧
    cs = '\x1b' :: '[' :: (attributes ++ ['m'])

/-- What is left of a text without the sequences that set colours. -/
inductive Stripped : List Char → List Char → Prop
  | nil : Stripped [] []
  | escape {e rest left : List Char} : IsEscape e → Stripped rest left → Stripped (e ++ rest) left
  | keep {c : Char} {rest left : List Char} : (∀ e more, IsEscape e → c :: rest ≠ e ++ more) →
    Stripped rest left → Stripped (c :: rest) (c :: left)

/-- How many characters of a text show. -/
def Visible (cs : List Char) (n : Nat) : Prop :=
  ∃ left, Stripped cs left ∧ Runes (bytes (String.ofList left)) n

/-- The columns of a line, by their widths and their cells. Around a cell are spaces only, and after each column is
a bar. -/
inductive Columns : List Nat → List String → List Char → Prop
  | nil : Columns [] [] []
  | cons {w : Nat} {ws : List Nat} {cell : String} {cells : List String} {before after rest : List Char} :
    (∀ c ∈ before, c = ' ') → (∀ c ∈ after, c = ' ') → Visible (before ++ cell.toList ++ after) w →
    Columns ws cells rest → Columns (w :: ws) (cell :: cells) (before ++ cell.toList ++ after ++ '|' :: rest)

/-- The lines of a table from above, each with its row; borders have none. -/
def outline (t : Table) : List (Option (List String)) :=
  none :: (t.header.toList.flatMap fun header => [some header, none]) ++ t.rows.map some ++ [none]

/-- A border, or a line with the cells of a row. Cells that a row lacks are empty. -/
inductive Laid (ws : List Nat) : Option (List String) → List Char → Prop
  | border : Laid ws none ('+' :: ws.flatMap fun w => List.replicate w '-' ++ ['+'])
  | row {row : List String} {cs : List Char} :
    Columns ws (row ++ List.replicate (ws.length - row.length) "") cs → Laid ws (some row) ('|' :: cs)

/-- What is written of a table consists of lines that show the same number of characters and that share their
columns. -/
structure Tabulated (t : Table) (lines : List (List Char)) : Prop where
  written : t.render.toList = lines.flatMap (· ++ ['\n'])
  single : ∀ l ∈ lines, '\n' ∉ l
  even : ∃ n, ∀ l ∈ lines, ∀ m, Visible l m ↔ m = n
  laid : ∃ ws, ws ≠ [] ∧ List.Forall₂ (Laid ws) (outline t) lines

variable {cs e rest left right : List Char} {c : Char} {m n : Nat} {ws : List Nat}

private theorem escapeLength?_iff : escapeLength? cs = some n ↔
    ∃ e rest, IsEscape e ∧ cs = e ++ rest ∧ e.length = n := by
  have permitted : ∀ c, isAttribute c = (c.isDigit || decide (c = ';')) := fun _ => rfl
  constructor
  · intro found
    unfold escapeLength? at found
    split at found
    next body =>
      split at found
      next rest after =>
        cases found
        refine ⟨_, rest, ⟨body.takeWhile isAttribute, fun c member => ?_, rfl⟩, ?_, by simp⟩
        · simpa [permitted] using List.mem_takeWhile_imp member
        · have whole := List.takeWhile_append_dropWhile (p := isAttribute) (l := body)
          rw [after] at whole
          simp [whole]
      · cases found
    · cases found
  · rintro ⟨_, rest, ⟨attributes, allowed, rfl⟩, rfl, rfl⟩
    have all : ∀ c ∈ attributes, isAttribute c = true := fun c member => by
      simpa [permitted] using allowed c member
    have stops : isAttribute 'm' = false := by decide
    simp [escapeLength?, List.takeWhile_append_of_pos all, List.dropWhile_append_of_pos all, stops]

private theorem stripFrom_eq (skip : Nat) (cs : List Char) : stripFrom skip cs = strip (cs.drop skip) := by
  induction cs generalizing skip with
  | nil => cases skip <;> rfl
  | cons c cs ih =>
    cases skip with
    | zero => rfl
    | succ skip => exact ih skip

private theorem IsEscape.cons (escape : IsEscape e) : ∃ body, e = '\x1b' :: body := by
  obtain ⟨_, _, rfl⟩ := escape
  exact ⟨_, rfl⟩

private theorem strip_escape (escape : IsEscape e) : strip (e ++ rest) = strip rest := by
  have found := escapeLength?_iff.mpr ⟨e, rest, escape, rfl, rfl⟩
  obtain ⟨body, rfl⟩ := escape.cons
  rw [List.cons_append] at found ⊢
  rw [strip, stripFrom, found]
  dsimp only
  rw [stripFrom_eq, List.length_cons, Nat.add_sub_cancel, List.drop_left]

private theorem strip_keep (own : ∀ e more, IsEscape e → c :: rest ≠ e ++ more) :
    strip (c :: rest) = c :: strip rest := by
  have none : escapeLength? (c :: rest) = none := by
    rw [Option.eq_none_iff_forall_ne_some]
    intro n found
    obtain ⟨e, more, escape, whole, _⟩ := escapeLength?_iff.mp found
    exact own e more escape whole
  rw [strip, stripFrom, none]
  rfl

theorem stripped_iff : Stripped cs left ↔ strip cs = left := by
  constructor
  · intro stripped
    induction stripped with
    | nil => rfl
    | escape escape _ ih => rw [strip_escape escape, ih]
    | keep own _ ih => rw [strip_keep own, ih]
  · rintro rfl
    induction length : cs.length using Nat.strongRecOn generalizing cs with
    | ind n ih =>
      subst length
      cases cs with
      | nil => exact .nil
      | cons c rest =>
        by_cases begins : ∃ e more, IsEscape e ∧ c :: rest = e ++ more
        · obtain ⟨e, more, escape, whole⟩ := begins
          rw [whole, strip_escape escape]
          refine .escape escape (ih more.length ?_ rfl)
          obtain ⟨body, rfl⟩ := escape.cons
          rw [whole, List.cons_append, List.length_cons, List.length_append]
          omega
        · have own : ∀ e more, IsEscape e → c :: rest ≠ e ++ more :=
            fun e more escape whole => begins ⟨e, more, escape, whole⟩
          rw [strip_keep own]
          exact .keep own (ih rest.length (Nat.lt_succ_self _) rfl)

theorem visible_iff : Visible cs n ↔ width (String.ofList cs) = n := by
  have runes := runes_text (String.ofList (strip cs))
  simp only [Visible, stripped_iff, exists_eq_left', width, String.toList_ofList]
  exact ⟨fun counted => runes.unique counted, fun same => same ▸ runes⟩

/-- The characters of which the frame of a table consists. -/
inductive IsFrame : Char → Prop
  | space : IsFrame ' '
  | bar : IsFrame '|'
  | dash : IsFrame '-'
  | corner : IsFrame '+'

private theorem IsFrame.single (frame : IsFrame c) : ∃ x, String.utf8EncodeChar c = [x] ∧
    ∀ left right, bytes (String.ofList (left ++ c :: right)) =
      bytes (String.ofList left) ++ x :: bytes (String.ofList right) := by
  have ordinary : strayByte? c = none := by cases frame <;> rfl
  obtain ⟨x, single⟩ : ∃ x, String.utf8EncodeChar c = [x] := by cases frame <;> exact ⟨_, rfl⟩
  refine ⟨x, single, fun left right => ?_⟩
  simp only [bytes, String.toList_ofList, List.flatMap_append, List.flatMap_cons, ordinary, toUTF8_singleton,
    single, List.singleton_append]

private theorem IsFrame.not_mem (frame : IsFrame c) (escape : IsEscape e) : c ∉ e := by
  obtain ⟨attributes, permitted, rfl⟩ := escape
  have apart : c ∉ attributes := fun member => by
    have own := permitted c member
    cases frame <;> exact absurd own (by decide)
  simp only [List.mem_cons, List.mem_append, List.not_mem_nil, or_false, not_or]
  exact ⟨by cases frame <;> decide, by cases frame <;> decide, apart, by cases frame <;> decide⟩

private theorem Stripped.append (frame : IsFrame c) (first : Stripped cs left) (second : Stripped rest right) :
    Stripped (cs ++ c :: rest) (left ++ c :: right) := by
  induction first with
  | nil =>
    refine .keep (fun e more escape whole => ?_) second
    obtain ⟨body, rfl⟩ := escape.cons
    cases whole
    cases frame
  | escape escape _ ih =>
    rw [List.append_assoc]
    exact .escape escape ih
  | @keep d others _ own _ ih =>
    refine .keep (fun e more escape whole => ?_) ih
    have parts : (d :: others) ++ c :: rest = e ++ more := whole
    rcases List.append_eq_append_iff.mp parts with ⟨back, inside, front⟩ | ⟨back, inside, _⟩
    · cases back with
      | nil => exact own e [] escape (by simpa using inside.symm)
      | cons b back =>
        cases front
        exact frame.not_mem escape (inside ▸ by simp)
    · exact own e back escape inside

/-- A character of the frame keeps apart what stands on its two sides. -/
theorem Visible.append (frame : IsFrame c) (first : Visible cs m) (second : Visible rest n) :
    Visible (cs ++ c :: rest) (m + 1 + n) := by
  obtain ⟨left, stripped, counted⟩ := first
  obtain ⟨right, also, remaining⟩ := second
  obtain ⟨x, single, apart⟩ := frame.single
  exact ⟨left ++ c :: right, stripped.append frame also, apart left right ▸ counted.append single remaining⟩

private theorem Visible.nil : Visible [] 0 := ⟨[], .nil, .nil⟩

private theorem Visible.cons (frame : IsFrame c) (counted : Visible cs n) : Visible (c :: cs) (n + 1) := by
  have whole := Visible.nil.append frame counted
  rwa [List.nil_append, Nat.zero_add, Nat.add_comm] at whole

private theorem Visible.before (front : ∀ c ∈ left, IsFrame c) (counted : Visible cs n) :
    Visible (left ++ cs) (left.length + n) := by
  induction left with
  | nil => simpa using counted
  | cons c left ih =>
    rw [List.forall_mem_cons] at front
    rw [List.length_cons, Nat.add_right_comm]
    exact (ih front.2).cons front.1

private theorem Visible.frame (all : ∀ c ∈ cs, IsFrame c) : Visible cs cs.length := by
  simpa using Visible.nil.before all

private theorem Visible.after (counted : Visible cs n) (back : ∀ c ∈ right, IsFrame c) :
    Visible (cs ++ right) (n + right.length) := by
  cases right with
  | nil => simpa using counted
  | cons c right =>
    rw [List.forall_mem_cons] at back
    rw [List.length_cons, Nat.add_comm right.length, ← Nat.add_assoc]
    exact counted.append back.1 (.frame back.2)

private theorem Columns.visible {cells : List String} (columns : Columns ws cells cs) :
    Visible cs (ws.map (· + 1)).sum := by
  induction columns with
  | nil => exact .nil
  | cons _ _ shows _ ih => exact shows.append .bar ih

private theorem Columns.single {cells : List String} (columns : Columns ws cells cs)
    (plain : ∀ cell ∈ cells, '\n' ∉ cell.toList) : '\n' ∉ cs := by
  induction columns with
  | nil => exact List.not_mem_nil
  | cons before after _ _ ih =>
    rw [List.forall_mem_cons] at plain
    simp only [List.mem_append, List.mem_cons, not_or]
    exact ⟨⟨⟨fun member => absurd (before _ member) (by decide), plain.1⟩,
      fun member => absurd (after _ member) (by decide)⟩, by decide, ih plain.2⟩

/-- A row of widths fits into another one. -/
private inductive FitsInto : List Nat → List Nat → Prop
  | nil {ws : List Nat} : FitsInto [] ws
  | cons {v w : Nat} {vs ws : List Nat} : v ≤ w → FitsInto vs ws → FitsInto (v :: vs) (w :: ws)

private theorem fits_cons {v w : Nat} {vs : List Nat} : FitsInto (v :: vs) (w :: ws) ↔ v ≤ w ∧ FitsInto vs ws :=
  ⟨fun | .cons less later => ⟨less, later⟩, fun ⟨less, later⟩ => .cons less later⟩

private theorem not_fits {v : Nat} {vs : List Nat} : ¬ FitsInto (v :: vs) [] := nofun

private theorem FitsInto.refl (ws : List Nat) : FitsInto ws ws := by
  induction ws with
  | nil => exact .nil
  | cons w ws ih => exact .cons (Nat.le_refl w) ih

private theorem FitsInto.trans {us vs : List Nat} (first : FitsInto us vs) (second : FitsInto vs ws) : FitsInto us ws := by
  induction first generalizing ws with
  | nil => exact .nil
  | cons less _ ih =>
    cases second with
    | cons least later => exact .cons (less.trans least) (ih later)

private theorem fits_widest (vs ws : List Nat) : FitsInto vs (Table.widest vs ws) ∧ FitsInto ws (Table.widest vs ws) := by
  fun_induction Table.widest vs ws with
  | case1 ws => exact ⟨.nil, .refl ws⟩
  | case2 vs => exact ⟨.refl vs, .nil⟩
  | case3 v vs w ws ih => exact ⟨.cons (Nat.le_max_left v w) ih.1, .cons (Nat.le_max_right v w) ih.2⟩

private theorem fits_foldl (rows : List (List String)) (ws : List Nat) :
    let final := rows.foldl (fun ws row => Table.widest ws (row.map width)) ws
    FitsInto ws final ∧ ∀ row ∈ rows, FitsInto (row.map width) final := by
  induction rows generalizing ws with
  | nil => exact ⟨.refl ws, nofun⟩
  | cons row rows ih =>
    obtain ⟨grown, later⟩ := ih (Table.widest ws (row.map width))
    obtain ⟨kept, fits⟩ := fits_widest ws (row.map width)
    exact ⟨kept.trans grown, List.forall_mem_cons.mpr ⟨fits.trans grown, later⟩⟩

private theorem fits_widths {t : Table} {row : List String} (member : row ∈ t.header.toList ++ t.rows) :
    FitsInto (row.map width) t.widths := (fits_foldl _ []).2 row member

private theorem pad_eq (s : String) (w : Nat) (alignment : Text.Alignment) : ∃ front back,
    (Table.pad s w alignment).toList = List.replicate front ' ' ++ s.toList ++ List.replicate back ' ' ∧
      front + back = w - width s := by
  cases alignment with
  | left => exact ⟨0, w - width s, by simp [Table.pad, Table.spaces], by omega⟩
  | right => exact ⟨w - width s, 0, by simp [Table.pad, Table.spaces], by omega⟩
  | center =>
    exact ⟨(w - width s) / 2, w - width s - (w - width s) / 2, by simp [Table.pad, Table.spaces], by omega⟩

private theorem replicate_eq {d : Char} : ∀ c ∈ List.replicate n d, c = d := fun _ => List.eq_of_mem_replicate

private theorem Columns.cell {cells : List String} {s : String} {w : Nat} (alignment : Text.Alignment)
    (less : width s ≤ w) (columns : Columns ws cells cs) :
    Columns ((w + 2) :: ws) (s :: cells) ((" " ++ Table.pad s w alignment ++ " |").toList ++ cs) := by
  obtain ⟨front, back, padded, gap⟩ := pad_eq s w alignment
  have frame : ∀ n, ∀ c ∈ List.replicate n ' ', IsFrame c := fun n c member => replicate_eq c member ▸ .space
  have shows : Visible s.toList (width s) := visible_iff.mpr (by rw [String.ofList_toList])
  have filled := (shows.before (frame (front + 1))).after (frame (back + 1))
  rw [List.length_replicate, List.length_replicate, show front + 1 + width s + (back + 1) = w + 2 by omega] at filled
  have text : (" " ++ Table.pad s w alignment ++ " |").toList ++ cs =
      List.replicate (front + 1) ' ' ++ s.toList ++ List.replicate (back + 1) ' ' ++ '|' :: cs := by
    rw [List.replicate_succ, List.replicate_succ' (n := back)]
    simp [padded]
  rw [text]
  exact .cons replicate_eq replicate_eq filled columns

private theorem width_empty : width "" = 0 := rfl

private theorem cells_columns {row : List String} (alignment : List Text.Alignment) (fits : FitsInto (row.map width) ws) :
    Columns (ws.map (· + 2)) (row ++ List.replicate (ws.length - row.length) "")
      ((Table.cells ws row alignment).flatMap String.toList) := by
  induction ws generalizing row alignment with
  | nil =>
    cases row with
    | nil => exact .nil
    | cons => exact absurd fits not_fits
  | cons w ws ih =>
    cases row with
    | nil =>
      have later := (@ih [] alignment.tail .nil).cell (alignment.headD .left) (width_empty.trans_le (Nat.zero_le w))
      simpa [Table.cells, List.replicate_succ] using later
    | cons cell row =>
      obtain ⟨less, later⟩ := fits_cons.mp fits
      simpa [Table.cells] using (ih alignment.tail later).cell (alignment.headD .left) less

private theorem Laid.visible {entry : Option (List String)} (laid : Laid ws entry cs) :
    Visible cs ((ws.map (· + 1)).sum + 1) := by
  cases laid with
  | row columns => exact columns.visible.cons .bar
  | border =>
    have all : ∀ c ∈ ws.flatMap fun w => List.replicate w '-' ++ ['+'], IsFrame c := by
      intro c member
      simp only [List.mem_flatMap, List.mem_append, List.mem_singleton] at member
      obtain ⟨w, _, dash | rfl⟩ := member
      · exact replicate_eq c dash ▸ .dash
      · exact .corner
    have length : (ws.flatMap fun w => List.replicate w '-' ++ ['+']).length = (ws.map (· + 1)).sum := by
      simp [List.length_flatMap]
    exact length ▸ (Visible.frame all).cons .corner

/-- A text is a line of a table. -/
private def Ruled (ws : List Nat) (entry : Option (List String)) (text : String) : Prop :=
  ∃ l, text.toList = l ++ ['\n'] ∧ '\n' ∉ l ∧ Laid ws entry l

private theorem drawn_border (ws : List Nat) : Ruled (ws.map (· + 2)) none (Table.border ws) := by
  refine ⟨_, ?_, ?_, .border⟩
  · simp [Table.border, String.toList_join, List.flatMap_map]
  · simp [List.mem_flatMap, List.mem_replicate]

private theorem drawn_line {row : List String} (alignment : List Text.Alignment) (fits : FitsInto (row.map width) ws)
    (plain : ∀ cell ∈ row, '\n' ∉ cell.toList) :
    Ruled (ws.map (· + 2)) (some row) (Table.line ws row alignment) := by
  have columns := cells_columns alignment fits
  refine ⟨'|' :: (Table.cells ws row alignment).flatMap String.toList, ?_, ?_, .row ?_⟩
  · simp [Table.line, String.toList_join]
  · rw [List.mem_cons, not_or]
    refine ⟨by decide, columns.single ?_⟩
    rw [List.forall_mem_append]
    refine ⟨plain, fun cell member => ?_⟩
    rw [List.eq_of_mem_replicate member]
    exact List.not_mem_nil
  · simpa using columns

private theorem outline_drawn {t : Table} (shown : t.widths ≠ [])
    (plain : ∀ row ∈ t.header.toList ++ t.rows, ∀ cell ∈ row, '\n' ∉ cell.toList) :
    List.Forall₂ (Ruled (t.widths.map (· + 2))) (outline t) t.lines := by
  have border := drawn_border t.widths
  have line : ∀ {row}, row ∈ t.header.toList ++ t.rows → ∀ alignment,
      Ruled (t.widths.map (· + 2)) (some row) (Table.line t.widths row alignment) :=
    fun member alignment => drawn_line alignment (fits_widths member) (plain _ member)
  have body : List.Forall₂ (Ruled (t.widths.map (· + 2))) (t.rows.map some)
      (t.rows.map (Table.line t.widths · t.alignment)) := by
    rw [List.forall₂_map_left_iff, List.forall₂_map_right_iff, List.forall₂_same]
    exact fun row member => line (List.mem_append_right _ member) t.alignment
  have empty : t.widths.isEmpty = false := List.isEmpty_eq_false_iff.mpr shown
  simp only [Table.lines, empty, Bool.false_eq_true, if_false]
  unfold outline
  cases header : t.header with
  | none => exact .cons border (List.rel_append body (.cons border .nil))
  | some head =>
    have first := @line head (List.mem_append_left _ (by simp [header])) t.headerAlignment
    exact .cons border (.cons first (.cons border (List.rel_append body (.cons border .nil))))

private theorem drawn_lines {entries : List (Option (List String))} {texts : List String}
    (drawn : List.Forall₂ (Ruled ws) entries texts) : ∃ lines : List (List Char),
      texts.flatMap String.toList = lines.flatMap (· ++ ['\n']) ∧
      (∀ l ∈ lines, '\n' ∉ l ∧ Visible l ((ws.map (· + 1)).sum + 1)) ∧
      List.Forall₂ (Laid ws) entries lines := by
  induction drawn with
  | nil => exact ⟨[], rfl, nofun, .nil⟩
  | cons first _ ih =>
    obtain ⟨l, text, single, laid⟩ := first
    obtain ⟨lines, texts, each, rest⟩ := ih
    refine ⟨l :: lines, ?_, List.forall_mem_cons.mpr ⟨⟨single, laid.visible⟩, each⟩, .cons laid rest⟩
    rw [List.flatMap_cons, List.flatMap_cons, text, texts]

/-- Of a table without columns nothing is written. Of any other, what is written is aligned. -/
theorem table_aligned (t : Table)
    (plain : ∀ row ∈ t.header.toList ++ t.rows, ∀ cell ∈ row, '\n' ∉ cell.toList) :
    ((∀ row ∈ t.header.toList ++ t.rows, row = []) ∧ t.render = "") ∨ ∃ lines, Tabulated t lines := by
  by_cases shown : t.widths = []
  · left
    constructor
    · intro row member
      have fits := fits_widths member
      rw [shown] at fits
      cases row with
      | nil => rfl
      | cons => exact absurd fits not_fits
    · simp [Table.render, Table.lines, shown]
  · obtain ⟨lines, written, each, laid⟩ := drawn_lines (outline_drawn shown plain)
    refine .inr ⟨lines, ?_, fun l member => (each l member).1, ?_, _, by simpa using shown, laid⟩
    · rw [Table.render, String.toList_join, written]
    · refine ⟨((t.widths.map (· + 2)).map (· + 1)).sum + 1, fun l member m => ?_⟩
      have counted := visible_iff.mp (each l member).2
      rw [visible_iff, counted, eq_comm]

/-- A table with a whole sequence, and with pieces of sequences that would be whole without the frame. -/
def motley : Table where
  header := some ["\x1b[1mname\x1b[22m", "value"]
  alignment := [.right, .center]
  rows := [["\x1b[31", "m!"], ["0m\x1b["], []]

theorem motley_aligned :
    (∀ row ∈ motley.header.toList ++ motley.rows, ∀ cell ∈ row, '\n' ∉ cell.toList) ∧
      ∃ lines, Tabulated motley lines ∧ lines.length = 7 := by
  have plain : ∀ row ∈ motley.header.toList ++ motley.rows, ∀ cell ∈ row, '\n' ∉ cell.toList := by decide
  refine ⟨plain, ?_⟩
  rcases table_aligned motley plain with ⟨none, _⟩ | ⟨lines, aligned⟩
  · cases none _ List.mem_cons_self
  · obtain ⟨ws, _, laid⟩ := aligned.laid
    exact ⟨lines, aligned, laid.length_eq.symm⟩

example : Table.render { rows := [["a"], ["b", "cc"]] } = "+---+----+\n| a |    |\n| b | cc |\n+---+----+\n" := by
  decide +kernel

end Lowering.Proofs

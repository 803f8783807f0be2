import Mathlib.Data.List.Forall2
import Mathlib.Data.List.Induction
import StreamQuery.Pattern

/-!
# The language of a pattern

A text is in the language of a pattern if it can be cut into pieces, one for
each item of the pattern, that fit the items in order (`Pattern.Matches`). How
the characters of a pattern make items is said by `Pattern.Reads`. Matching
accepts exactly the texts of the language (`Pattern.accepts_iff`).

The table that matching works on has an entry for every beginning of the
pattern. The invariant is `Tells`: after each character, each entry says
whether the text so far is in the language of that beginning. Merging runs
changes the items but not the language (`matches_mergeRuns`).
-/

namespace StreamQuery

inductive PatternItem.Fits : PatternItem → List Char → Prop where
  | literal (c : Char) : Fits (.literal c) [c]
  | anyOne (c : Char) : Fits .anyOne [c]
  | anyRun (run : List Char) : Fits .anyRun run

namespace Pattern

inductive Reads : List Char → List PatternItem → Prop where
  | nil : Reads [] []
  | run (h : Reads rest wanted) : Reads ('%' :: rest) (.anyRun :: wanted)
  | one (h : Reads rest wanted) : Reads ('_' :: rest) (.anyOne :: wanted)
  | escaped (c : Char) (h : Reads rest wanted) : Reads ('\\' :: c :: rest) (.literal c :: wanted)
  | backslash : Reads ['\\'] [.literal '\\']
  | itself (hrun : c ≠ '%') (hone : c ≠ '_') (hescape : c ≠ '\\') (h : Reads rest wanted) :
      Reads (c :: rest) (.literal c :: wanted)

/-- The text can be cut into pieces that fit the items one by one. -/
def Matches (items : List PatternItem) (text : List Char) : Prop :=
  ∃ pieces : List (List Char), pieces.flatten = text ∧
    List.Forall₂ PatternItem.Fits items pieces

-- ---------------------------------------------------------------------------
-- Reading a pattern
-- ---------------------------------------------------------------------------

theorem items_of_reads (h : Reads pattern wanted) : items pattern = wanted := by
  induction h with
  | nil => rfl
  | run _ ih | one _ ih => simp [items, ih]
  | escaped c _ ih => simp [items, ih]
  | backslash => rfl
  | itself hrun hone hescape _ ih => simp [items, hrun, hone, hescape, ih]

theorem reads_items (pattern : List Char) : Reads pattern (items pattern) := by
  fun_induction items pattern with
  | case1 => exact .nil
  | case2 c rest ih => exact .escaped c ih
  | case3 c rest hescape item ih =>
    by_cases hrun : c = '%'
    · subst hrun
      exact .run ih
    by_cases hone : c = '_'
    · subst hone
      exact .one ih
    have hitem : item = .literal c := by simp [item, hrun, hone]
    rw [hitem]
    by_cases hc : c = '\\'
    · subst hc
      cases rest with
      | nil => exact .backslash
      | cons d rest => exact absurd rfl (hescape d rest rfl)
    · exact .itself hrun hone hc ih

theorem reads_iff : Reads pattern wanted ↔ items pattern = wanted :=
  ⟨items_of_reads, fun h => h ▸ reads_items pattern⟩

-- ---------------------------------------------------------------------------
-- Texts of the language
-- ---------------------------------------------------------------------------

variable {item : PatternItem} {items more : List PatternItem} {text : List Char}

theorem matches_nil : Matches [] text ↔ text = [] := by
  simp [Matches, eq_comm]

theorem matches_cons : Matches (item :: items) text ↔
    ∃ piece rest, text = piece ++ rest ∧ item.Fits piece ∧ Matches items rest := by
  constructor
  · rintro ⟨pieces, rfl, hfits⟩
    cases hfits with
    | @cons _ piece _ pieces hpiece hpieces => exact ⟨piece, _, rfl, hpiece, pieces, rfl, hpieces⟩
  · rintro ⟨piece, rest, rfl, hpiece, pieces, rfl, hpieces⟩
    exact ⟨piece :: pieces, rfl, .cons hpiece hpieces⟩

theorem matches_append : Matches (items ++ more) text ↔
    ∃ before after, text = before ++ after ∧ Matches items before ∧ Matches more after := by
  induction items generalizing text with
  | nil => simp [matches_nil]
  | cons item items ih =>
    simp only [List.cons_append, matches_cons, ih]
    constructor
    · rintro ⟨piece, _, rfl, hpiece, before, after, rfl, hbefore, hafter⟩
      exact ⟨piece ++ before, after, (List.append_assoc ..).symm, ⟨piece, before, rfl, hpiece,
        hbefore⟩, hafter⟩
    · rintro ⟨_, after, rfl, ⟨piece, before, rfl, hpiece, hbefore⟩, hafter⟩
      exact ⟨piece, before ++ after, List.append_assoc .., hpiece, before, after, rfl, hbefore,
        hafter⟩

theorem matches_append_singleton : Matches (items ++ [item]) text ↔
    ∃ before piece, text = before ++ piece ∧ Matches items before ∧ item.Fits piece := by
  simp [matches_append, matches_cons, matches_nil]

theorem matches_append_singleton_nil :
    Matches (items ++ [item]) [] ↔ Matches items [] ∧ item = .anyRun := by
  rw [matches_append_singleton]
  constructor
  · rintro ⟨before, piece, htext, hbefore, hpiece⟩
    obtain ⟨rfl, rfl⟩ := List.append_eq_nil_iff.mp htext.symm
    cases hpiece
    exact ⟨hbefore, rfl⟩
  · rintro ⟨hbefore, rfl⟩
    exact ⟨[], [], rfl, hbefore, .anyRun []⟩

theorem matches_append_singleton_of_one (hone : ∀ piece, item.Fits piece → ∃ d, piece = [d]) :
    Matches (items ++ [item]) (text ++ [c]) ↔ Matches items text ∧ item.Fits [c] := by
  rw [matches_append_singleton]
  constructor
  · rintro ⟨before, piece, htext, hbefore, hpiece⟩
    obtain ⟨d, rfl⟩ := hone piece hpiece
    obtain ⟨rfl, hd⟩ := List.append_inj' htext rfl
    obtain ⟨rfl, -⟩ := List.cons_eq_cons.mp hd
    exact ⟨hbefore, hpiece⟩
  · rintro ⟨hbefore, hpiece⟩
    exact ⟨text, [c], rfl, hbefore, hpiece⟩

theorem matches_append_anyOne :
    Matches (items ++ [.anyOne]) (text ++ [c]) ↔ Matches items text := by
  rw [matches_append_singleton_of_one]
  · exact and_iff_left (.anyOne c)
  · rintro piece ⟨⟩
    exact ⟨_, rfl⟩

theorem matches_append_literal : Matches (items ++ [.literal expected]) (text ++ [c]) ↔
    Matches items text ∧ expected = c := by
  rw [matches_append_singleton_of_one]
  · refine and_congr_right fun _ => ⟨fun h => ?_, fun h => ?_⟩
    · cases h
      rfl
    · subst h
      exact .literal expected
  · rintro piece ⟨⟩
    exact ⟨_, rfl⟩

theorem matches_append_anyRun : Matches (items ++ [.anyRun]) (text ++ [c]) ↔
    Matches (items ++ [.anyRun]) text ∨ Matches items (text ++ [c]) := by
  constructor
  · intro h
    obtain ⟨before, piece, htext, hbefore, -⟩ := matches_append_singleton.mp h
    cases piece using List.reverseRecOn with
    | nil => exact .inr (by rwa [htext, List.append_nil])
    | append_singleton piece d =>
      rw [← List.append_assoc] at htext
      obtain ⟨rfl, -⟩ := List.append_inj' htext rfl
      exact .inl (matches_append_singleton.mpr ⟨before, piece, rfl, hbefore, .anyRun piece⟩)
  · rintro (h | h)
    · obtain ⟨before, piece, rfl, hbefore, -⟩ := matches_append_singleton.mp h
      exact matches_append_singleton.mpr
        ⟨before, piece ++ [c], List.append_assoc .., hbefore, .anyRun _⟩
    · exact matches_append_singleton.mpr ⟨_, [], (List.append_nil _).symm, h, .anyRun []⟩

-- ---------------------------------------------------------------------------
-- Merging runs
-- ---------------------------------------------------------------------------

theorem matches_anyRun_anyRun :
    Matches (.anyRun :: .anyRun :: items) text ↔ Matches (.anyRun :: items) text := by
  rw [matches_cons]
  constructor
  · rintro ⟨piece, _, rfl, -, hrest⟩
    obtain ⟨piece', rest, rfl, -, hrest⟩ := matches_cons.mp hrest
    exact matches_cons.mpr ⟨piece ++ piece', rest, (List.append_assoc ..).symm, .anyRun _, hrest⟩
  · intro h
    exact ⟨[], text, rfl, .anyRun [], h⟩

theorem matches_mergeRuns : Matches (mergeRuns items) text ↔ Matches items text := by
  induction items generalizing text with
  | nil => rfl
  | cons item rest ih =>
    rw [mergeRuns]
    split
    · rename_i hruns
      obtain ⟨rfl, hhead⟩ := hruns
      obtain ⟨rest, rfl⟩ := List.head?_eq_some_iff.mp hhead
      rw [ih, matches_anyRun_anyRun]
    · simp only [matches_cons, ih]

-- ---------------------------------------------------------------------------
-- The table
-- ---------------------------------------------------------------------------

/-- Behind the items in `done`, the entries of a row say in turn whether the
text is in the language of these items and then of each longer beginning. -/
inductive Tells (text : List Char) : List PatternItem → List PatternItem → List Bool → Prop where
  | last {done : List PatternItem} {entry : Bool} (h : entry = true ↔ Matches done text) :
      Tells text done [] [entry]
  | more {done rest : List PatternItem} {item : PatternItem} {entry : Bool} {row : List Bool}
      (h : entry = true ↔ Matches done text) (hrow : Tells text (done ++ [item]) rest row) :
      Tells text done (item :: rest) (entry :: row)

variable {done rest wanted : List PatternItem} {row : List Bool} {matched diagonal left : Bool}

theorem tells_firstRow (h : matched = true ↔ Matches done []) :
    Tells [] done rest (firstRow matched rest) := by
  induction rest generalizing done matched with
  | nil => exact .last h
  | cons item rest ih =>
    refine .more h (ih ?_)
    rw [matches_append_singleton_nil, ← h, Bool.and_eq_true, decide_eq_true_iff]

/-- One more character: the new entry for a beginning follows from the old one,
the old one before it and the new one before it. -/
theorem tells_nextEntries (hleft : left = true ↔ Matches done (text ++ [c]))
    (h : Tells text done rest (diagonal :: row)) :
    Tells (text ++ [c]) done rest (left :: nextEntries c rest diagonal left row) := by
  induction rest generalizing done diagonal left row with
  | nil =>
    cases h
    exact .last hleft
  | cons item rest ih =>
    cases h with
    | more hdiagonal hrow =>
      cases row with
      | nil => cases hrow
      | cons above row =>
        have habove : above = true ↔ Matches (done ++ [item]) text := by cases hrow <;> assumption
        refine .more hleft (ih ?_ hrow)
        cases item with
        | anyRun => rw [matches_append_anyRun, ← habove, ← hleft, Bool.or_eq_true]
        | anyOne => rw [matches_append_anyOne, ← hdiagonal]
        | literal expected =>
          rw [matches_append_literal, ← hdiagonal, Bool.and_eq_true, decide_eq_true_iff]

theorem tells_nextRow (h : Tells text [] wanted row) :
    Tells (text ++ [c]) [] wanted (nextRow wanted row c) := by
  cases row with
  | nil => cases h
  | cons first row => exact tells_nextEntries (by simp [matches_nil]) h

theorem tells_foldl (h : Tells text [] wanted row) (more : List Char) :
    Tells (text ++ more) [] wanted (more.foldl (nextRow wanted) row) := by
  induction more generalizing text row with
  | nil => rwa [List.append_nil]
  | cons c more ih =>
    rw [List.append_cons]
    exact ih (tells_nextRow h)

theorem getLast?_of_tells (h : Tells text done rest row) :
    row.getLast? = some true ↔ Matches (done ++ rest) text := by
  induction h with
  | last h => simp [← h]
  | more h hrow ih =>
    rw [List.append_cons, ← ih]
    cases hrow <;> simp

/-- A text is accepted exactly when it can be cut into consecutive pieces that
fit the items of the pattern in order. Read from the left, `%` is an item for
any run of characters, `_` for one character, a backslash with a character
behind it for that character, a backslash at the end for itself, and every
other character for itself. -/
theorem accepts_iff (pattern text : String) : accepts pattern text = true ↔
    ∃ wanted, Reads pattern.toList wanted ∧ Matches wanted text.toList := by
  have hfirst : Tells [] [] (mergeRuns (Pattern.items pattern.toList))
      (firstRow true (mergeRuns (Pattern.items pattern.toList))) :=
    tells_firstRow (by simp [matches_nil])
  rw [accepts, beq_iff_eq, getLast?_of_tells (tells_foldl hfirst text.toList), List.nil_append,
    List.nil_append, matches_mergeRuns]
  simp only [reads_iff, exists_eq_left']

/-- An escaped `%` is itself, and a backslash at the end too. -/
example : accepts "1__\\%%\\" "100% of \\" = true ∧ accepts "1__\\%" "1000" = false := by decide

end Pattern

end StreamQuery

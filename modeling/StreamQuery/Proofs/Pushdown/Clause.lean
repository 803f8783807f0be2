import Mathlib.Data.List.TakeWhile

/-!
# Texts by their parentheses

A text without parentheses, or a token with operands in parentheses: `clause?`
takes a text apart by its outermost parentheses and looks at nothing else. An
operand may hold parentheses of its own, as long as they belong to each other
(`Closed`): looking for the parenthesis that closes an operand then passes over
all of it (`closing_append`).
-/

namespace StreamQuery

def Plain (text : List Char) : Prop := '(' ∉ text ∧ ')' ∉ text

instance (text : List Char) : Decidable (Plain text) := inferInstanceAs (Decidable (_ ∧ _))

theorem Plain.append (h : Plain text) (h' : Plain more) : Plain (text ++ more) :=
  ⟨fun hmem => (List.mem_append.mp hmem).elim h.1 h'.1,
    fun hmem => (List.mem_append.mp hmem).elim h.2 h'.2⟩

def inParentheses (text : List Char) : List Char := '(' :: (text ++ [')'])

def behind (front : List Char) (cut : List Char × List Char) : List Char × List Char :=
  (front ++ cut.1, cut.2)

/-- The text up to the parenthesis that closes the ones before it, which are
`depth` and one more, and what follows. -/
def closing : Nat → List Char → Option (List Char × List Char)
  | _, [] => none
  | depth, c :: rest =>
    if c = '(' then (closing (depth + 1) rest).map (behind [c])
    else if c = ')' then
      if depth = 0 then some ([], rest) else (closing (depth - 1) rest).map (behind [c])
    else (closing depth rest).map (behind [c])

def opening (text : List Char) : Option (List Char × List Char) :=
  match text.dropWhile (· != '(') with
  | [] => none
  | _ :: rest => some (text.takeWhile (· != '('), rest)

/-- A text by its outermost parentheses. -/
inductive Clause where
  | plain (text : List Char)
  | unary (token operand : List Char)
  | binary (left token right : List Char)

def Clause.text : Clause → List Char
  | .plain text => text
  | .unary token operand => token ++ inParentheses operand
  | .binary left token right => inParentheses left ++ (token ++ inParentheses right)

def clause? (text : List Char) : Option Clause :=
  match opening text with
  | none => some (.plain text)
  | some (token, rest) =>
    match closing 0 rest with
    | none => none
    | some (first, rest) =>
      match opening rest with
      | none => some (.unary token first)
      | some (between, rest) => (closing 0 rest).map fun (second, _) => .binary first between second

-- ---------------------------------------------------------------------------
-- Parts are shorter
-- ---------------------------------------------------------------------------

theorem length_closing (h : closing depth text = some (inside, rest)) :
    inside.length + rest.length < text.length := by
  induction text generalizing depth inside rest with
  | nil => cases h
  | cons c text ih =>
    have hstep : ∀ depth, (closing depth text).map (behind [c]) = some (inside, rest) →
        inside.length + rest.length < (c :: text).length := by
      intro depth h
      obtain ⟨⟨inside', rest'⟩, h', hparts⟩ := Option.map_eq_some_iff.mp h
      cases hparts
      have hshorter := ih h'
      simp only [List.length_append, List.length_cons, List.length_nil]
      omega
    rw [closing] at h
    split at h
    · exact hstep _ h
    · split at h
      · split at h
        · cases h
          simp
        · exact hstep _ h
      · exact hstep _ h

theorem length_opening (h : opening text = some (token, rest)) : rest.length < text.length := by
  unfold opening at h
  split at h
  · cases h
  · rename_i c after heq
    cases h
    have hle := List.length_dropWhile_le (· != '(') text
    rw [heq, List.length_cons] at hle
    omega

namespace Clause

def operands : Clause → List (List Char)
  | .plain _ => []
  | .unary _ operand => [operand]
  | .binary left _ right => [left, right]

end Clause

theorem length_operands (h : clause? text = some clause) (hmem : operand ∈ clause.operands) :
    operand.length < text.length := by
  unfold clause? at h
  split at h
  · cases h
    cases hmem
  · rename_i token rest hopening
    have hrest := length_opening hopening
    split at h
    · cases h
    · rename_i first after hfirst
      have hafter := length_closing hfirst
      split at h
      · cases h
        cases List.mem_singleton.mp hmem
        omega
      · rename_i between last hbetween
        have hlast := length_opening hbetween
        obtain ⟨⟨second, others⟩, hsecond, rfl⟩ := Option.map_eq_some_iff.mp h
        have hothers := length_closing hsecond
        rcases List.mem_cons.mp hmem with rfl | hmem
        · omega
        · cases List.mem_singleton.mp hmem
          omega

-- ---------------------------------------------------------------------------
-- Taking written texts apart
-- ---------------------------------------------------------------------------

theorem opening_plain (h : Plain text) : opening text = none := by
  have hall : text.dropWhile (· != '(') = [] :=
    List.dropWhile_eq_nil_iff.mpr fun c hc => bne_iff_ne.mpr fun heq => h.1 (heq ▸ hc)
  rw [opening, hall]

theorem opening_append (h : Plain token) (rest : List Char) :
    opening (token ++ '(' :: rest) = some (token, rest) := by
  have hpass : ∀ c ∈ token, (c != '(') = true :=
    fun c hc => bne_iff_ne.mpr fun heq => h.1 (heq ▸ hc)
  rw [opening, List.dropWhile_append_of_pos hpass, List.takeWhile_append_of_pos hpass]
  simp

/-- Every parenthesis in the text belongs to another one in it: whatever is
looked for behind the text is found there. -/
def Closed (text : List Char) : Prop :=
  ∀ depth rest, closing depth (text ++ rest) = (closing depth rest).map (behind text)

theorem behind_behind (front more : List Char) (cut : List Char × List Char) :
    behind front (behind more cut) = behind (front ++ more) cut := by
  rw [behind, behind, behind, List.append_assoc]

theorem Closed.nil : Closed [] := by
  intro depth rest
  exact Option.map_id'.symm

theorem Closed.append (h : Closed text) (h' : Closed more) : Closed (text ++ more) := by
  intro depth rest
  rw [List.append_assoc, h, h', Option.map_map]
  exact congrArg (Option.map · _) (funext fun cut => behind_behind text more cut)

theorem Plain.closed (h : Plain text) : Closed text := by
  induction text with
  | nil => exact .nil
  | cons c text ih =>
    intro depth rest
    have hopen : c ≠ '(' := fun heq => h.1 (heq ▸ List.mem_cons_self)
    have hclose : c ≠ ')' := fun heq => h.2 (heq ▸ List.mem_cons_self)
    have htail : Closed text :=
      ih ⟨fun hc => h.1 (List.mem_cons_of_mem _ hc), fun hc => h.2 (List.mem_cons_of_mem _ hc)⟩
    rw [List.cons_append, closing, if_neg hopen, if_neg hclose, htail, Option.map_map]
    rfl

theorem inParentheses_append (text rest : List Char) :
    inParentheses text ++ rest = '(' :: (text ++ ')' :: rest) := by
  rw [inParentheses, List.cons_append, List.append_assoc, List.singleton_append]

theorem Closed.closing_append (h : Closed text) (rest : List Char) :
    closing 0 (text ++ ')' :: rest) = some (text, rest) := by
  rw [h, closing, if_neg (by decide), if_pos rfl, if_pos rfl, Option.map_some, behind, List.append_nil]

theorem Closed.inParentheses (h : Closed text) : Closed (inParentheses text) := by
  intro depth rest
  rw [inParentheses_append, closing, if_pos rfl, h, closing, if_neg (by decide), if_pos rfl,
    if_neg (Nat.succ_ne_zero depth), Nat.add_sub_cancel, Option.map_map, Option.map_map]
  refine congrArg (Option.map · _) (funext fun cut => ?_)
  rw [Function.comp_apply, Function.comp_apply, behind_behind, behind_behind]
  rfl

namespace Clause

def Proper : Clause → Prop
  | .plain text => Plain text
  | .unary token operand => Plain token ∧ Closed operand
  | .binary left token right => Closed left ∧ Plain token ∧ Closed right

theorem Proper.closed {clause : Clause} (h : clause.Proper) : Closed clause.text := by
  cases clause with
  | plain token => exact Plain.closed h
  | unary token operand => exact h.1.closed.append h.2.inParentheses
  | binary left token right =>
    exact h.1.inParentheses.append (h.2.1.closed.append h.2.2.inParentheses)

theorem Proper.clause?_text {clause : Clause} (h : clause.Proper) :
    clause? clause.text = some clause := by
  have hnil : Plain [] := ⟨List.not_mem_nil, List.not_mem_nil⟩
  cases clause with
  | plain token =>
    have hopening : opening token = none := opening_plain h
    rw [text, clause?, hopening]
  | unary token operand =>
    have hopening := opening_append h.1 (operand ++ [')'])
    rw [text, inParentheses, clause?, hopening]
    simp only [h.2.closing_append, opening_plain hnil]
  | binary left token right =>
    have hopening := opening_append hnil (left ++ ')' :: (token ++ inParentheses right))
    rw [List.nil_append] at hopening
    rw [text, inParentheses_append, clause?, hopening]
    simp only [h.1.closing_append, inParentheses, opening_append h.2.1,
      h.2.2.closing_append, Option.map_some]

end Clause

end StreamQuery

import StreamQuery.Proofs.Value.Order

/-!
# The order of values is consistent

Values are partially ordered up to equality. They compare as equal exactly
when they are equal (`Value.compare_eq_iff`), exchanging the two sides reverses
the order or names the two kinds of a mismatch the other way round
(`Value.compare_exchanged`), and what is less than something less is less
(`Value.compare_lt_trans`). In particular a mismatch never comes up between the
two ends of a chain, although it may stand behind the difference that decided:
tuples and objects are compared part by part, and the first part that differs
decides (`firstDecides`).
-/

namespace StreamQuery

-- ---------------------------------------------------------------------------
-- Floats
-- ---------------------------------------------------------------------------

namespace Double

variable {x y : Double}

theorem toNat_bits (x : Double) :
    x.bits.toNat = (if x.isNegative then signBit else 0) + x.magnitude := by
  have hbound := x.bits.toNat_lt
  unfold isNegative magnitude
  by_cases h : signBit ≤ x.bits.toNat
  · rw [decide_eq_true h, if_pos rfl]
    unfold signBit at h ⊢
    omega
  · rw [decide_eq_false h, if_neg Bool.false_ne_true]
    unfold signBit at h ⊢
    omega

theorem eq_of_rank_eq (hx : x.magnitude = 0 → x.isNegative = false)
    (hy : y.magnitude = 0 → y.isNegative = false) (h : x.rank = y.rank) : x = y := by
  have hbits : x.bits.toNat = y.bits.toNat := by
    rw [toNat_bits x, toNat_bits y]
    unfold rank at h
    cases hnx : x.isNegative <;> cases hny : y.isNegative <;>
      simp only [hnx, hny, reduceCtorEq, Bool.false_eq_true, ↓reduceIte, imp_false] at h hx hy ⊢ <;>
      omega
  cases x
  cases y
  exact congrArg Double.mk (UInt64.toNat_inj.mp hbits)

theorem isNegative_normalize (h : x.normalize.magnitude = 0) : x.normalize.isNegative = false := by
  unfold normalize at h ⊢
  split
  · rfl
  · split
    · rfl
    · simp_all

theorem rank_normalize_inj : x.normalize.rank = y.normalize.rank ↔ x.normalize = y.normalize :=
  ⟨eq_of_rank_eq isNegative_normalize isNegative_normalize, congrArg rank⟩

end Double

-- ---------------------------------------------------------------------------
-- Both sides of a comparison
-- ---------------------------------------------------------------------------

/-- The outcomes of asking two values for their order and of asking them the
other way round: the results correspond by `turn`, and a mismatch names the two
kinds in the other order. -/
inductive Exchanged {α : Type} (turn : α → α) : Except Error α → Except Error α → Prop where
  | ok (x : α) : Exchanged turn (.ok x) (.ok (turn x))
  | mismatch (left right : String) :
      Exchanged turn (.error (.typeMismatch left right)) (.error (.typeMismatch right left))

def firstDecides (first rest : Except Error Ordering) : Except Error Ordering :=
  match first with
  | .ok .eq => rest
  | decided => decided

variable {first first' first'' rest rest' rest'' : Except Error Ordering}

theorem firstDecides_eq : firstDecides first rest = .ok .eq ↔ first = .ok .eq ∧ rest = .ok .eq := by
  unfold firstDecides
  split <;> simp_all

theorem firstDecides_lt : firstDecides first rest = .ok .lt ↔
    first = .ok .lt ∨ first = .ok .eq ∧ rest = .ok .lt := by
  unfold firstDecides
  split <;> simp_all

theorem Exchanged.firstDecides (hfirst : Exchanged Ordering.swap first first')
    (hrest : Exchanged Ordering.swap rest rest') :
    Exchanged Ordering.swap (firstDecides first rest) (firstDecides first' rest') := by
  cases hfirst with
  | ok order =>
    cases order with
    | lt => exact .ok Ordering.lt
    | eq => exact hrest
    | gt => exact .ok Ordering.gt
  | mismatch left right => exact .mismatch left right

/-- A chain of three sequences whose first parts are ordered like values: equal
ones may stand for each other. -/
theorem firstDecides_lt_trans
    (hlt : first = .ok .lt → first' = .ok .lt → first'' = .ok .lt)
    (hleft : first = .ok .eq → first'' = first') (hright : first' = .ok .eq → first'' = first)
    (hrest : rest = .ok .lt → rest' = .ok .lt → rest'' = .ok .lt)
    (h : firstDecides first rest = .ok .lt) (h' : firstDecides first' rest' = .ok .lt) :
    firstDecides first'' rest'' = .ok .lt := by
  rw [firstDecides_lt] at h h' ⊢
  rcases h with h | ⟨he, hr⟩
  · rcases h' with h' | ⟨he', -⟩
    · exact .inl (hlt h h')
    · exact .inl ((hright he').trans h)
  · rcases h' with h' | ⟨he', hr'⟩
    · exact .inl ((hleft he).trans h')
    · exact .inr ⟨(hleft he).trans he', hrest hr hr'⟩

namespace Value

theorem compareItems_cons (a b : Value) (as bs : List Value) :
    compareItems (a :: as) (b :: bs) = firstDecides (a.compare b) (compareItems as bs) := rfl

theorem compareFields_cons (m n : String) (a b : Value) (as bs : List (String × Value)) :
    compareFields ((m, a) :: as) ((n, b) :: bs) =
      firstDecides (.ok (Ord.compare m n)) (firstDecides (a.compare b) (compareFields as bs)) := by
  rw [compareFields]
  cases Ord.compare m n <;> rfl

-- ---------------------------------------------------------------------------
-- Equal values
-- ---------------------------------------------------------------------------

mutual

theorem compare_eq_beq : (a b : Value) → (a.compare b = .ok .eq ↔ a.beq b = true)
  | .null, b | .string _, b | .bool _, b | .time _, b | .duration _, b => by
    cases b <;> simp [compare, beq]
  | .int _, b => by cases b <;> simp [compare, beq, Int64.toInt_inj]
  | .float _, b => by
    cases b <;> simp [compare, beq, Double.totalOrder, Double.rank_normalize_inj]
  | .tuple as, b => by
    cases b with
    | tuple bs => exact compareItems_eq_beq as bs
    | _ => simp [compare, beq]
  | .object as, b => by
    cases b with
    | object bs => exact compareFields_eq_beq as bs
    | _ => simp [compare, beq]
termination_by structural a => a

theorem compareItems_eq_beq : (as bs : List Value) →
    (compareItems as bs = .ok .eq ↔ beqItems as bs = true)
  | [], bs => by cases bs <;> simp [compareItems, beqItems]
  | a :: as, bs => by
    cases bs with
    | nil => simp [compareItems, beqItems]
    | cons b bs =>
      rw [compareItems_cons, firstDecides_eq, compare_eq_beq a b, compareItems_eq_beq as bs,
        beqItems, Bool.and_eq_true]
termination_by structural as => as

theorem compareFields_eq_beq : (as bs : List (String × Value)) →
    (compareFields as bs = .ok .eq ↔ beqFields as bs = true)
  | [], bs => by cases bs <;> simp [compareFields, beqFields]
  | (m, a) :: as, bs => by
    cases bs with
    | nil => simp [compareFields, beqFields]
    | cons field bs =>
      obtain ⟨n, b⟩ := field
      rw [compareFields_cons, firstDecides_eq, firstDecides_eq, compare_eq_beq a b,
        compareFields_eq_beq as bs, beqFields, Bool.and_eq_true, Bool.and_eq_true, beq_iff_eq,
        Except.ok.injEq, Std.compare_eq_iff_eq]
termination_by structural as => as

end

theorem compare_eq_iff {a b : Value} : a.compare b = .ok .eq ↔ a == b := compare_eq_beq a b

theorem compare_congr {a b c d : Value} (hac : a == c) (hbd : b == d) :
    a.compare b = c.compare d := by
  rw [← compare_normal a b, ← compare_normal c d, eq_iff_normal.mp hac, eq_iff_normal.mp hbd]

-- ---------------------------------------------------------------------------
-- The other way round
-- ---------------------------------------------------------------------------

theorem exchanged_leaf {α : Type} [Ord α] [Std.OrientedOrd α] (x y : α) :
    Exchanged Ordering.swap (.ok (Ord.compare x y)) (.ok (Ord.compare y x)) := by
  rw [Std.OrientedOrd.eq_swap (a := y) (b := x)]
  exact .ok _

mutual

theorem compare_exchanged : (a b : Value) → Exchanged Ordering.swap (a.compare b) (b.compare a)
  | .null, b => by cases b <;> first | exact .ok Ordering.eq | exact .mismatch _ _
  | .int _, b | .float _, b | .string _, b | .bool _, b | .time _, b | .duration _, b => by
    cases b <;> first | exact exchanged_leaf _ _ | exact .mismatch _ _
  | .tuple as, b => by
    cases b with
    | tuple bs => exact compareItems_exchanged as bs
    | _ => exact .mismatch _ _
  | .object as, b => by
    cases b with
    | object bs => exact compareFields_exchanged as bs
    | _ => exact .mismatch _ _
termination_by structural a => a

theorem compareItems_exchanged : (as bs : List Value) →
    Exchanged Ordering.swap (compareItems as bs) (compareItems bs as)
  | [], [] => .ok Ordering.eq
  | [], _ :: _ => .ok Ordering.lt
  | _ :: _, [] => .ok Ordering.gt
  | a :: as, b :: bs => (compare_exchanged a b).firstDecides (compareItems_exchanged as bs)
termination_by structural as => as

theorem compareFields_exchanged : (as bs : List (String × Value)) →
    Exchanged Ordering.swap (compareFields as bs) (compareFields bs as)
  | [], [] => .ok Ordering.eq
  | [], _ :: _ => .ok Ordering.lt
  | _ :: _, [] => .ok Ordering.gt
  | (m, a) :: as, (n, b) :: bs => by
    rw [compareFields_cons, compareFields_cons]
    exact (exchanged_leaf m n).firstDecides
      ((compare_exchanged a b).firstDecides (compareFields_exchanged as bs))
termination_by structural as => as

end

theorem compare_swap {a b : Value} : a.compare b = .ok order ↔ b.compare a = .ok order.swap := by
  have h := compare_exchanged a b
  generalize a.compare b = forth, b.compare a = back at h ⊢
  cases h with
  | ok x => rw [Except.ok.injEq, Except.ok.injEq, Ordering.swap_inj]
  | mismatch left right => simp

-- ---------------------------------------------------------------------------
-- Chains
-- ---------------------------------------------------------------------------

theorem lt_trans_leaf {α : Type} [Ord α] [Std.TransOrd α] {x y z : α}
    (h : (Except.ok (Ord.compare x y) : Except Error Ordering) = .ok .lt)
    (h' : (Except.ok (Ord.compare y z) : Except Error Ordering) = .ok .lt) :
    (Except.ok (Ord.compare x z) : Except Error Ordering) = .ok .lt := by
  rw [Except.ok.injEq] at h h' ⊢
  exact Std.TransCmp.lt_trans h h'

mutual

theorem compare_lt_trans : (a b c : Value) → a.compare b = .ok .lt → b.compare c = .ok .lt →
    a.compare c = .ok .lt
  | .null, b, c, h, _ => by cases b <;> simp [compare] at h
  | .int _, b, c, h, h' | .float _, b, c, h, h' | .string _, b, c, h, h' | .bool _, b, c, h, h'
  | .time _, b, c, h, h' | .duration _, b, c, h, h' => by
    cases b <;> first
      | cases h
      | cases c <;> first | exact lt_trans_leaf h h' | cases h'
  | .tuple as, b, c, h, h' => by
    cases b with
    | tuple bs =>
      cases c with
      | tuple cs => exact compareItems_lt_trans as bs cs h h'
      | _ => cases h'
    | _ => cases h
  | .object as, b, c, h, h' => by
    cases b with
    | object bs =>
      cases c with
      | object cs => exact compareFields_lt_trans as bs cs h h'
      | _ => cases h'
    | _ => cases h
termination_by structural a => a

theorem compareItems_lt_trans : (as bs cs : List Value) → compareItems as bs = .ok .lt →
    compareItems bs cs = .ok .lt → compareItems as cs = .ok .lt
  | [], bs, cs, h, h' => by
    cases bs <;> cases cs <;> simp_all [compareItems]
  | a :: as, bs, cs, h, h' => by
    cases bs with
    | nil => simp [compareItems] at h
    | cons b bs =>
      cases cs with
      | nil => simp [compareItems] at h'
      | cons c cs =>
        exact firstDecides_lt_trans (compare_lt_trans a b c)
          (fun he => compare_congr (compare_eq_iff.mp he) BEq.rfl)
          (fun he => compare_congr BEq.rfl (BEq.symm (compare_eq_iff.mp he)))
          (compareItems_lt_trans as bs cs) h h'
termination_by structural as => as

theorem compareFields_lt_trans : (as bs cs : List (String × Value)) →
    compareFields as bs = .ok .lt → compareFields bs cs = .ok .lt → compareFields as cs = .ok .lt
  | [], bs, cs, h, h' => by
    cases bs <;> cases cs <;> simp_all [compareFields]
  | (l, a) :: as, bs, cs, h, h' => by
    cases bs with
    | nil => simp [compareFields] at h
    | cons field bs =>
      cases cs with
      | nil => simp [compareFields] at h'
      | cons field' cs =>
        obtain ⟨m, b⟩ := field
        obtain ⟨n, c⟩ := field'
        rw [compareFields_cons] at h h' ⊢
        refine firstDecides_lt_trans lt_trans_leaf (fun he => ?_) (fun he => ?_)
          (firstDecides_lt_trans (compare_lt_trans a b c)
            (fun he => compare_congr (compare_eq_iff.mp he) BEq.rfl)
            (fun he => compare_congr BEq.rfl (BEq.symm (compare_eq_iff.mp he)))
            (compareFields_lt_trans as bs cs)) h h'
        · rw [Std.compare_eq_iff_eq.mp (Except.ok.inj he)]
        · rw [Std.compare_eq_iff_eq.mp (Except.ok.inj he)]
termination_by structural as => as

end

end Value

end StreamQuery

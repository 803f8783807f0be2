import Mathlib.Data.List.Sort
import Mathlib.Data.String.Basic
import StreamQuery.Proofs.Value.Comparison
import StreamQuery.Proofs.Value.Encoding

/-!
# Bytes in the order of values

Canonical bytes are compared one by one, as unsigned numbers. For values of one shape
this is the order of the values themselves (`byte_order_follows_values`): numbers are
written from their highest digit down, after they have been moved up by half of the
range, and parts in the same place have encodings of one length, so that the first
parts that differ are met at the same position in both encodings (`compare_append`).

Floats and texts promise nothing of the kind. A negative float is written like a large
number, and of two texts the longer one comes last.
-/

namespace StreamQuery

-- ---------------------------------------------------------------------------
-- Parts of fixed width
-- ---------------------------------------------------------------------------

namespace Canonical

theorem compare_append {as bs s t : Bytes} (h : as.length = bs.length) :
    Ord.compare (as ++ s) (bs ++ t) = (Ord.compare as bs).then (Ord.compare s t) := by
  induction as generalizing bs with
  | nil =>
    obtain rfl := List.length_eq_zero_iff.mp h.symm
    rfl
  | cons a as ih =>
    cases bs with
    | nil => simp at h
    | cons b bs =>
      simp only [List.cons_append, List.compare_cons_cons]
      rw [ih (by simpa using h), Ordering.then_assoc]

theorem compare_eq_digits (n m : Nat) : Ord.compare n m =
    (Ord.compare (n / 256) (m / 256)).then (Ord.compare (UInt8.ofNat n) (UInt8.ofNat m)) := by
  rw [UInt8.compare_eq_toNat_compare_toNat, UInt8.toNat_ofNat', UInt8.toNat_ofNat']
  rcases Nat.lt_trichotomy (n / 256) (m / 256) with h | h | h
  · rw [Nat.compare_eq_lt.mpr h, Nat.compare_eq_lt.mpr (by omega)]
    rfl
  · rw [Nat.compare_eq_eq.mpr h, Ordering.then]
    rcases Nat.lt_trichotomy n m with h' | rfl | h'
    · rw [Nat.compare_eq_lt.mpr h', Nat.compare_eq_lt.mpr (by omega)]
    · rw [Std.compare_self, Std.compare_self]
    · rw [Nat.compare_eq_gt.mpr h', Nat.compare_eq_gt.mpr (by omega)]
  · rw [Nat.compare_eq_gt.mpr h, Nat.compare_eq_gt.mpr (by omega)]
    rfl

theorem compare_bigEndian (hn : n < Nat.pow 256 width) (hm : m < Nat.pow 256 width) :
    Ord.compare (bigEndian width n) (bigEndian width m) = Ord.compare n m := by
  induction width generalizing n m with
  | zero =>
    have hpow : Nat.pow 256 0 = 1 := rfl
    obtain rfl : n = m := by omega
    rw [Std.compare_self, Std.compare_self]
  | succ width ih =>
    have hpow : Nat.pow 256 (width + 1) = Nat.pow 256 width * 256 := rfl
    simp only [bigEndian]
    rw [compare_append (by simp only [length_bigEndian]), ih (by omega) (by omega),
      compare_eq_digits n m, List.compare_cons_cons]
    simp

theorem compare_signed (hn : Representable width n) (hm : Representable width m) :
    Ord.compare (signed width n) (signed width m) = Ord.compare n m := by
  have on := signed_offset hn
  have om := signed_offset hm
  obtain ⟨nlow, nhigh⟩ := hn
  obtain ⟨mlow, mhigh⟩ := hm
  simp only [signed]
  rw [compare_bigEndian (by omega) (by omega)]
  rcases Int.lt_trichotomy n m with h | rfl | h
  · rw [Int.compare_eq_lt.mpr h, Nat.compare_eq_lt]
    omega
  · rw [Std.compare_self, Std.compare_self]
  · rw [Int.compare_eq_gt.mpr h, Nat.compare_eq_gt]
    omega

theorem length_signed : (signed width n).length = width := length_bigEndian

end Canonical

-- ---------------------------------------------------------------------------
-- Shapes
-- ---------------------------------------------------------------------------

namespace Value

open Canonical

/-- The fields stand in ascending order of their names, each name once. -/
def InNameOrder (fields : List (String × Value)) : Prop :=
  (fields.map Prod.fst).Pairwise (· < ·)

theorem mem_names_insertField (h : other ∈ (insertField name v fields).map Prod.fst) :
    other = name ∨ other ∈ fields.map Prod.fst := by
  induction fields with
  | nil => simpa [insertField] using h
  | cons field rest ih =>
    obtain ⟨m, w⟩ := field
    rw [insertField] at h
    cases hm : Ord.compare name m with
    | lt => simpa [hm] using h
    | eq =>
      simp only [hm, List.map_cons, List.mem_cons] at h
      exact h.imp id (List.mem_cons_of_mem _)
    | gt =>
      simp only [hm, List.map_cons, List.mem_cons] at h ⊢
      rcases h with rfl | h
      · exact .inr (.inl rfl)
      · exact (ih h).imp id .inr

theorem InNameOrder.insertField (h : InNameOrder fields) (name : String) (v : Value) :
    InNameOrder (insertField name v fields) := by
  induction fields with
  | nil => simp [InNameOrder, Value.insertField]
  | cons field rest ih =>
    obtain ⟨m, w⟩ := field
    obtain ⟨hfirst, hrest⟩ := List.pairwise_cons.mp h
    rw [Value.insertField]
    cases hm : Ord.compare name m with
    | lt =>
      have hlt : name < m := compare_lt_iff_lt.mp hm
      refine List.pairwise_cons.mpr ⟨?_, h⟩
      intro other hother
      rcases List.mem_cons.mp hother with rfl | hother
      · exact hlt
      · exact hlt.trans (hfirst other hother)
    | eq =>
      obtain rfl : name = m := compare_eq_iff_eq.mp hm
      exact h
    | gt =>
      have hlt : m < name := compare_gt_iff_gt.mp hm
      refine List.pairwise_cons.mpr ⟨?_, ih hrest⟩
      intro other hother
      rcases mem_names_insertField hother with rfl | hother
      · exact hlt
      · exact hfirst other hother

theorem inNameOrder_ofFields (fields : List (String × Value)) :
    ∃ sorted, ofFields fields = .object sorted ∧ InNameOrder sorted := by
  refine ⟨_, rfl, List.foldlRecOn fields _ (motive := InNameOrder) .nil ?_⟩
  intro sorted h field _
  exact h.insertField field.1 field.2

/-- Two values of one shape: tuples of one length and objects with the same names, and
in every place leaves of one kind, which is neither float nor text. -/
inductive SameShape : Value → Value → Prop where
  | null : SameShape .null .null
  | bool (p q : Bool) : SameShape (.bool p) (.bool q)
  | int (n m : Int64) : SameShape (.int n) (.int m)
  | time (t u : Timestamp) : SameShape (.time t) (.time u)
  | duration (d e : Duration) : SameShape (.duration d) (.duration e)
  | tuple {as bs : List Value} (hlength : as.length = bs.length)
      (h : ∀ i (ha : i < as.length) (hb : i < bs.length), SameShape as[i] bs[i]) :
      SameShape (.tuple as) (.tuple bs)
  | object {as bs : List (String × Value)} (ha : InNameOrder as) (hb : InNameOrder bs)
      (hnames : ∀ name, name ∈ as.map Prod.fst ↔ name ∈ bs.map Prod.fst)
      (h : ∀ name a b, (name, a) ∈ as → (name, b) ∈ bs → SameShape a b) :
      SameShape (.object as) (.object bs)

-- ---------------------------------------------------------------------------
-- Order
-- ---------------------------------------------------------------------------

/-- Two encodings of one length that are in the order of what they encode. -/
structure InByteOrder (order : Except Error Ordering) (s t : Bytes) : Prop where
  length_eq : s.length = t.length
  order_eq : order = .ok (Ord.compare s t)

theorem InByteOrder.append (hfirst : InByteOrder first s t) (hrest : InByteOrder rest s' t') :
    InByteOrder (firstDecides first rest) (s ++ s') (t ++ t') where
  length_eq := by rw [List.length_append, List.length_append, hfirst.length_eq, hrest.length_eq]
  order_eq := by
    rw [hfirst.order_eq, hrest.order_eq, compare_append hfirst.length_eq]
    cases Ord.compare s t <;> rfl

theorem InByteOrder.same (s : Bytes) : InByteOrder (.ok .eq) s s :=
  ⟨rfl, by rw [Std.compare_self]⟩

theorem InByteOrder.signed (hn : Representable width n) (hm : Representable width m) :
    InByteOrder (.ok (Ord.compare n m)) (signed width n) (signed width m) :=
  ⟨by rw [length_signed, length_signed], by rw [compare_signed hn hm]⟩

theorem InByteOrder.behind {order : Except Error Ordering} (h : InByteOrder order s t)
    (front : Bytes) : InByteOrder order (front ++ s) (front ++ t) :=
  (InByteOrder.same front).append h

theorem InByteOrder.tagged {order : Except Error Ordering} (h : InByteOrder order s t)
    (tag : UInt8) : InByteOrder order (tag :: s) (tag :: t) :=
  h.behind [tag]

theorem inByteOrder_items {as bs : List Value} (hlength : as.length = bs.length)
    (h : ∀ i (ha : i < as.length) (hb : i < bs.length),
      InByteOrder (as[i].compare bs[i]) as[i].canonical bs[i].canonical) :
    InByteOrder (compareItems as bs) (canonicalItems as) (canonicalItems bs) := by
  induction as generalizing bs with
  | nil =>
    obtain rfl := List.length_eq_zero_iff.mp hlength.symm
    exact .same []
  | cons a as ih =>
    cases bs with
    | nil => simp at hlength
    | cons b bs =>
      have hfirst : InByteOrder (a.compare b) a.canonical b.canonical := h 0 (by simp) (by simp)
      have hrest := ih (by simpa using hlength) fun i ha hb =>
        h (i + 1) (Nat.succ_lt_succ ha) (Nat.succ_lt_succ hb)
      rw [compareItems_cons, canonicalItems, canonicalItems]
      exact hfirst.append hrest

theorem inByteOrder_fields {as bs : List (String × Value)}
    (hnames : as.map Prod.fst = bs.map Prod.fst)
    (h : ∀ name a b, (name, a) ∈ as → (name, b) ∈ bs →
      InByteOrder (a.compare b) a.canonical b.canonical) :
    InByteOrder (compareFields as bs) (canonicalFields as) (canonicalFields bs) := by
  induction as generalizing bs with
  | nil =>
    obtain rfl : bs = [] := by simpa using hnames.symm
    exact .same []
  | cons field as ih =>
    cases bs with
    | nil => simp at hnames
    | cons field' bs =>
      obtain ⟨name, a⟩ := field
      obtain ⟨name', b⟩ := field'
      obtain ⟨rfl, hrestNames⟩ : name = name' ∧ as.map Prod.fst = bs.map Prod.fst := by
        simpa using hnames
      have hfirst := h name a b List.mem_cons_self List.mem_cons_self
      have hrest := ih hrestNames fun name a b ha hb =>
        h name a b (List.mem_cons_of_mem _ ha) (List.mem_cons_of_mem _ hb)
      rw [compareFields_cons, canonicalFields, canonicalFields, Std.compare_self]
      exact (hfirst.append hrest).behind (text name)

theorem SameShape.inByteOrder {a b : Value} (h : a.SameShape b) :
    InByteOrder (a.compare b) a.canonical b.canonical := by
  induction h with
  | null => exact .same _
  | bool p q =>
    rw [compare, canonical, canonical]
    exact ⟨rfl, by cases p <;> cases q <;> rfl⟩
  | int n m =>
    rw [compare, canonical, canonical]
    exact (InByteOrder.signed (representable_int64 n) (representable_int64 m)).tagged 2
  | time t u =>
    rw [compare, canonical, canonical]
    exact (InByteOrder.signed (representable_time t) (representable_time u)).tagged 5
  | duration d e =>
    rw [compare, canonical, canonical]
    exact (InByteOrder.signed (representable_duration d) (representable_duration e)).tagged 6
  | @tuple as bs hlength _ ih =>
    rw [compare, canonical, canonical, hlength]
    exact ((inByteOrder_items hlength ih).behind (Canonical.length bs.length)).tagged 7
  | @object as bs ha hb hnames _ ih =>
    -- Names in order are determined by the set of them.
    have heq : as.map Prod.fst = bs.map Prod.fst := ha.eq_of_mem_iff hb hnames
    have hlength : as.length = bs.length := by simpa using congrArg List.length heq
    rw [compare, canonical, canonical, hlength]
    exact ((inByteOrder_fields heq ih).behind (Canonical.length bs.length)).tagged 8

end Value

/-- Values of one shape are ordered, and their canonical bytes, compared from the first
byte on as unsigned numbers, are in the same order. -/
theorem byte_order_follows_values {a b : Value} (h : a.SameShape b) :
    a.compare b = .ok (Ord.compare a.canonical b.canonical) :=
  h.inByteOrder.order_eq

/-- An object whose fields are given in another order than that of their names. -/
def window (isOpen : Bool) (d : Duration) : Value :=
  .ofFields [("until", .duration d), ("open", .bool isOpen)]

theorem window_eq (isOpen : Bool) (d : Duration) :
    window isOpen d = .object [("open", .bool isOpen), ("until", .duration d)] := by
  have hnames : Ord.compare "open" "until" = .lt := by decide
  simp [window, Value.ofFields, Value.insertField, hnames]

theorem window_sameShape (p q : Bool) (d e : Duration) : (window p d).SameShape (window q e) := by
  have hsorted : ∀ p d, Value.InNameOrder [("open", .bool p), ("until", .duration d)] := by
    intro p d
    obtain ⟨sorted, heq, h⟩ := Value.inNameOrder_ofFields [("until", .duration d), ("open", .bool p)]
    cases (window_eq p d).symm.trans heq
    exact h
  rw [window_eq, window_eq]
  refine .object (hsorted p d) (hsorted q e) (by simp) ?_
  intro name a b ha hb
  simp only [List.mem_cons, Prod.mk.injEq, List.not_mem_nil, or_false] at ha hb
  rcases ha with ⟨rfl, rfl⟩ | ⟨rfl, rfl⟩
  · rcases hb with ⟨-, rfl⟩ | ⟨hname, -⟩
    · exact .bool p q
    · exact absurd hname (by decide)
  · rcases hb with ⟨hname, -⟩ | ⟨-, rfl⟩
    · exact absurd hname (by decide)
    · exact .duration d e

theorem byte_order_follows_values_of_windows :
    (Value.tuple [.int Int64.minValue, window true (.ofInt64 (-1))]).SameShape
      (.tuple [.int Int64.minValue, window true (.ofInt64 1)]) ∧
    Ord.compare (Value.tuple [.int Int64.minValue, window true (.ofInt64 (-1))]).canonical
      (Value.tuple [.int Int64.minValue, window true (.ofInt64 1)]).canonical = .lt := by
  have hshape : (Value.tuple [.int Int64.minValue, window true (.ofInt64 (-1))]).SameShape
      (.tuple [.int Int64.minValue, window true (.ofInt64 1)]) := by
    refine .tuple rfl ?_
    rintro (_ | _ | i) ha hb
    · exact .int _ _
    · exact window_sameShape _ _ _ _
    · exact absurd ha (by simp)
  have horder : (Value.tuple [.int Int64.minValue, window true (.ofInt64 (-1))]).compare
      (.tuple [.int Int64.minValue, window true (.ofInt64 1)]) = .ok .lt := rfl
  exact ⟨hshape, Except.ok.inj ((byte_order_follows_values hshape).symm.trans horder)⟩

end StreamQuery

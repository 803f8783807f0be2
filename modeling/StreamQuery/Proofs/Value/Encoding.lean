import StreamQuery.Proofs.Value.Equality
import StreamQuery.Value.Canonical

/-!
# Canonical bytes identify values

Encodings written one after the other can be told apart, and two values have
the same bytes exactly when they are equal (`canonical_identifies_values`).
Each part of an encoding is either of fixed width or preceded by its length,
so it is read back from the front of a text without a look at what follows;
the lemmas `*_append_iff` say so part by part.

Lengths are written in eight bytes. `Bounded` values are those whose lengths
all fit; memory holds no others.
-/

namespace StreamQuery

-- ---------------------------------------------------------------------------
-- Parts of fixed width
-- ---------------------------------------------------------------------------

namespace Canonical

theorem length_bigEndian : (bigEndian width n).length = width := by
  induction width generalizing n with
  | zero => rfl
  | succ width ih => simp [bigEndian, ih]

theorem bigEndian_inj (hn : n < Nat.pow 256 width) (hm : m < Nat.pow 256 width)
    (h : bigEndian width n = bigEndian width m) : n = m := by
  induction width generalizing n m with
  | zero =>
    have hpow : Nat.pow 256 0 = 1 := rfl
    omega
  | succ width ih =>
    have hpow : Nat.pow 256 (width + 1) = Nat.pow 256 width * 256 := rfl
    simp only [bigEndian] at h
    obtain ⟨high, low⟩ := List.append_inj' h rfl
    have high := ih (by omega) (by omega) high
    have low := congrArg UInt8.toNat (List.cons.inj low).1
    simp only [UInt8.toNat_ofNat'] at low
    omega

theorem bigEndian_append_iff (hn : n < Nat.pow 256 width) (hm : m < Nat.pow 256 width) :
    bigEndian width n ++ s = bigEndian width m ++ t ↔ n = m ∧ s = t := by
  constructor
  · intro h
    obtain ⟨hw, hrest⟩ := List.append_inj h (by simp only [length_bigEndian])
    exact ⟨bigEndian_inj hn hm hw, hrest⟩
  · rintro ⟨rfl, rfl⟩
    rfl

theorem length_append_iff (hn : n < UInt64.size) (hm : m < UInt64.size) :
    length n ++ s = length m ++ t ↔ n = m ∧ s = t :=
  bigEndian_append_iff hn hm

/-- The numbers that `signed` writes in `width` bytes. -/
def Representable (width : Nat) (n : Int) : Prop :=
  -((Nat.pow 256 width / 2 : Nat) : Int) ≤ n ∧ n < ((Nat.pow 256 width / 2 : Nat) : Int)

theorem signed_offset (hn : Representable width n) :
    (((n + (Nat.pow 256 width / 2 : Nat)) % (Nat.pow 256 width : Nat)).toNat : Int) =
      n + (Nat.pow 256 width / 2 : Nat) := by
  obtain ⟨low, high⟩ := hn
  rw [Int.emod_eq_of_lt (by omega) (by omega)]
  omega

theorem signed_append_iff (hn : Representable width n) (hm : Representable width m) :
    signed width n ++ s = signed width m ++ t ↔ n = m ∧ s = t := by
  have on := signed_offset hn
  have om := signed_offset hm
  obtain ⟨nlow, nhigh⟩ := hn
  obtain ⟨mlow, mhigh⟩ := hm
  simp only [signed]
  rw [bigEndian_append_iff (by omega) (by omega)]
  refine and_congr_left fun _ => ?_
  constructor
  · intro h
    omega
  · rintro rfl
    rfl

theorem representable_int64 (n : Int64) : Representable 8 n.toInt := by
  have low := n.le_toInt
  have high := n.toInt_lt
  have hpow : Nat.pow 256 8 = 18446744073709551616 := rfl
  unfold Representable
  omega

theorem representable_time (t : Timestamp) : Representable 16 t.nanos := by
  have hoffset := t.offset_range
  have hlocal := t.local_range
  have hpow : Nat.pow 256 16 = 340282366920938463463374607431768211456 := rfl
  unfold WithinCalendar firstSecond lastSecond nanosPerSecond at hlocal
  unfold Representable
  omega

theorem representable_duration (d : Duration) : Representable 16 d.nanos := by
  have h := d.range
  have hpow : Nat.pow 256 16 = 340282366920938463463374607431768211456 := rfl
  unfold FitsSeconds nanosPerSecond at h
  unfold Representable
  omega

theorem float_append_iff {x y : Double} :
    bigEndian 8 x.bits.toNat ++ s = bigEndian 8 y.bits.toNat ++ t ↔ x = y ∧ s = t := by
  rw [bigEndian_append_iff x.bits.toNat_lt y.bits.toNat_lt, UInt64.toNat_inj]
  cases x
  cases y
  simp

-- ---------------------------------------------------------------------------
-- Texts
-- ---------------------------------------------------------------------------

theorem text_append_iff {a b : String} (ha : a.utf8ByteSize < UInt64.size)
    (hb : b.utf8ByteSize < UInt64.size) : text a ++ s = text b ++ t ↔ a = b ∧ s = t := by
  constructor
  · intro h
    simp only [text, List.append_assoc] at h
    obtain ⟨hsize, h⟩ := (length_append_iff ha hb).mp h
    obtain ⟨hbytes, hrest⟩ := List.append_inj h (by simpa using hsize)
    exact ⟨String.toByteArray_inj.mp (ByteArray.ext (Array.toList_inj.mp hbytes)), hrest⟩
  · rintro ⟨rfl, rfl⟩
    rfl

end Canonical

-- ---------------------------------------------------------------------------
-- Values
-- ---------------------------------------------------------------------------

namespace Value

open Canonical

mutual

/-- Every text, tuple and object in the value has a length of at most eight
bytes. -/
def Bounded : Value → Prop
  | .string s => s.utf8ByteSize < UInt64.size
  | .tuple items => items.length < UInt64.size ∧ BoundedItems items
  | .object fields => fields.length < UInt64.size ∧ BoundedFields fields
  | _ => True
termination_by structural v => v

def BoundedItems : List Value → Prop
  | [] => True
  | v :: rest => Bounded v ∧ BoundedItems rest
termination_by structural items => items

def BoundedFields : List (String × Value) → Prop
  | [] => True
  | (name, v) :: rest => name.utf8ByteSize < UInt64.size ∧ Bounded v ∧ BoundedFields rest
termination_by structural fields => fields

end

mutual

def decideBounded : (v : Value) → Decidable v.Bounded
  | .null | .int _ | .float _ | .bool _ | .time _ | .duration _ => isTrue trivial
  | .string s => inferInstanceAs (Decidable (s.utf8ByteSize < UInt64.size))
  | .tuple items => @instDecidableAnd _ _ inferInstance (decideBoundedItems items)
  | .object fields => @instDecidableAnd _ _ inferInstance (decideBoundedFields fields)
termination_by structural v => v

def decideBoundedItems : (items : List Value) → Decidable (BoundedItems items)
  | [] => isTrue trivial
  | v :: rest => @instDecidableAnd _ _ (decideBounded v) (decideBoundedItems rest)
termination_by structural items => items

def decideBoundedFields : (fields : List (String × Value)) → Decidable (BoundedFields fields)
  | [] => isTrue trivial
  | (_, v) :: rest =>
    @instDecidableAnd _ _ inferInstance
      (@instDecidableAnd _ _ (decideBounded v) (decideBoundedFields rest))
termination_by structural fields => fields

end

instance (v : Value) : Decidable v.Bounded := decideBounded v

theorem length_eq_of_beqItems (h : beqItems as bs) : as.length = bs.length := by
  rw [← length_normalItems as, (beqItems_iff as bs).mp h, length_normalItems]

theorem length_eq_of_beqFields (h : beqFields as bs) : as.length = bs.length := by
  rw [← length_normalFields as, (beqFields_iff as bs).mp h, length_normalFields]

mutual

theorem canonical_append_iff : (a b : Value) → (s t : Bytes) → a.Bounded → b.Bounded →
    (a.canonical ++ s = b.canonical ++ t ↔ a.beq b = true ∧ s = t)
  | .null, b, s, t, _, _ => by cases b <;> simp [canonical, beq]
  | .bool p, b, s, t, _, _ => by
    cases b with
    | bool q => cases p <;> cases q <;> simp [canonical, beq]
    | _ => simp [canonical, beq]
  | .int n, b, s, t, _, _ => by
    cases b with
    | int m =>
      have h := signed_append_iff (s := s) (t := t) (representable_int64 n) (representable_int64 m)
      simpa [canonical, beq, Int64.toInt_inj] using h
    | _ => simp [canonical, beq]
  | .float x, b, s, t, _, _ => by
    cases b with
    | float y => simpa [canonical, beq] using float_append_iff
    | _ => simp [canonical, beq]
  | .string v, b, s, t, hv, hb => by
    cases b with
    | string w => simpa [canonical, beq] using text_append_iff hv hb
    | _ => simp [canonical, beq]
  | .time p, b, s, t, _, _ => by
    cases b with
    | time q =>
      have h := signed_append_iff (s := s) (t := t) (representable_time p) (representable_time q)
      simpa [canonical, beq] using h
    | _ => simp [canonical, beq]
  | .duration d, b, s, t, _, _ => by
    cases b with
    | duration e =>
      have h := signed_append_iff (s := s) (t := t) (representable_duration d)
        (representable_duration e)
      simpa [canonical, beq] using h
    | _ => simp [canonical, beq]
  | .tuple as, b, s, t, ha, hb => by
    cases b with
    | tuple bs =>
      have h := canonicalItems_append_iff as bs s t ha.2 hb.2
      simp only [canonical, beq, List.cons_append, List.append_assoc, List.cons.injEq, true_and,
        length_append_iff ha.1 hb.1]
      exact ⟨fun ⟨hlen, h'⟩ => (h hlen).mp h', fun h' =>
        ⟨length_eq_of_beqItems h'.1, (h (length_eq_of_beqItems h'.1)).mpr h'⟩⟩
    | _ => simp [canonical, beq]
  | .object as, b, s, t, ha, hb => by
    cases b with
    | object bs =>
      have h := canonicalFields_append_iff as bs s t ha.2 hb.2
      simp only [canonical, beq, List.cons_append, List.append_assoc, List.cons.injEq, true_and,
        length_append_iff ha.1 hb.1]
      exact ⟨fun ⟨hlen, h'⟩ => (h hlen).mp h', fun h' =>
        ⟨length_eq_of_beqFields h'.1, (h (length_eq_of_beqFields h'.1)).mpr h'⟩⟩
    | _ => simp [canonical, beq]
termination_by structural a => a

/-- Items in a row are told apart when there are equally many of them, which
the length in front makes sure of. -/
theorem canonicalItems_append_iff : (as bs : List Value) → (s t : Bytes) → BoundedItems as →
    BoundedItems bs → as.length = bs.length →
    (canonicalItems as ++ s = canonicalItems bs ++ t ↔ beqItems as bs = true ∧ s = t)
  | [], bs, s, t, _, _, hlen => by
    cases bs with
    | nil => simp [canonicalItems, beqItems]
    | cons b bs => simp at hlen
  | a :: as, bs, s, t, ha, hb, hlen => by
    cases bs with
    | nil => simp at hlen
    | cons b bs =>
      have hrest := canonicalItems_append_iff as bs s t ha.2 hb.2 (by simpa using hlen)
      simp only [canonicalItems, beqItems, List.append_assoc, Bool.and_eq_true]
      rw [canonical_append_iff a b _ _ ha.1 hb.1, hrest, and_assoc]
termination_by structural as => as

theorem canonicalFields_append_iff : (as bs : List (String × Value)) → (s t : Bytes) →
    BoundedFields as → BoundedFields bs → as.length = bs.length →
    (canonicalFields as ++ s = canonicalFields bs ++ t ↔ beqFields as bs = true ∧ s = t)
  | [], bs, s, t, _, _, hlen => by
    cases bs with
    | nil => simp [canonicalFields, beqFields]
    | cons b bs => simp at hlen
  | (m, a) :: as, bs, s, t, ha, hb, hlen => by
    cases bs with
    | nil => simp at hlen
    | cons field bs =>
      obtain ⟨n, b⟩ := field
      have hrest := canonicalFields_append_iff as bs s t ha.2.2 hb.2.2 (by simpa using hlen)
      simp only [canonicalFields, beqFields, List.append_assoc, Bool.and_eq_true, beq_iff_eq]
      rw [text_append_iff ha.1 hb.1, canonical_append_iff a b _ _ ha.2.1 hb.2.1, hrest,
        and_assoc, and_assoc]
termination_by structural as => as

end

-- ---------------------------------------------------------------------------
-- Identity
-- ---------------------------------------------------------------------------

mutual

theorem canonical_normal : (v : Value) → v.normal.canonical = v.canonical
  | .null | .int _ | .string _ | .bool _ | .duration _ | .time _ => rfl
  | .float x => by simp [normal, canonical, x.normalize_normalize]
  | .tuple items => by
    simp [normal, canonical, canonicalItems_normal items, length_normalItems items]
  | .object fields => by
    simp [normal, canonical, canonicalFields_normal fields, length_normalFields fields]
termination_by structural v => v

theorem canonicalItems_normal : (items : List Value) →
    canonicalItems (normalItems items) = canonicalItems items
  | [] => rfl
  | v :: rest => by
    simp [normalItems, canonicalItems, canonical_normal v, canonicalItems_normal rest]
termination_by structural items => items

theorem canonicalFields_normal : (fields : List (String × Value)) →
    canonicalFields (normalFields fields) = canonicalFields fields
  | [] => rfl
  | (name, v) :: rest => by
    simp [normalFields, canonicalFields, canonical_normal v, canonicalFields_normal rest]
termination_by structural fields => fields

end

theorem canonical_eq_of_beq {a b : Value} (h : a == b) : a.canonical = b.canonical := by
  rw [← canonical_normal a, eq_iff_normal.mp h, canonical_normal b]

theorem canonical_eq_iff {a b : Value} (ha : a.Bounded) (hb : b.Bounded) :
    a.canonical = b.canonical ↔ a == b := by
  have h := canonical_append_iff a b [] [] ha hb
  simpa [beq_def] using h

end Value

/-- The key is that of a tuple whose lengths all fit. -/
def GroupKey.Bounded (key : GroupKey) : Prop := key.toValue.Bounded

instance (key : GroupKey) : Decidable key.Bounded :=
  inferInstanceAs (Decidable key.toValue.Bounded)

theorem GroupKey.canonical_eq_iff {j k : GroupKey} (hj : j.Bounded) (hk : k.Bounded) :
    j.canonical = k.canonical ↔ j == k :=
  Value.canonical_eq_iff hj hk

theorem GroupKey.canonical_eq_of_beq {j k : GroupKey} (h : j == k) : j.canonical = k.canonical :=
  Value.canonical_eq_of_beq h

/-- The canonical bytes are the identity of a value and are read back from the
front of any text. So no encoding is a proper prefix of another, equal values
are hashed alike, and the bytes of a group key are its identity too.

Premise: all lengths in the values fit eight bytes. -/
theorem canonical_identifies_values :
    (∀ a b : Value, a.Bounded → b.Bounded → ∀ s t,
      a.canonical ++ s = b.canonical ++ t ↔ a == b ∧ s = t) ∧
    (∀ a b : Value, a.Bounded → b.Bounded → (a.canonical = b.canonical ↔ a == b)) ∧
    (∀ a b : Value, a.Bounded → b.Bounded → a.canonical <+: b.canonical →
      a.canonical = b.canonical) ∧
    (∀ a b : Value, a == b → ∀ (σ : Type) (write : σ → Bytes → σ) (hasher : σ),
      a.feed write hasher = b.feed write hasher) ∧
    (∀ j k : GroupKey, j.Bounded → k.Bounded → (j == k ↔ j.canonical = k.canonical)) := by
  refine ⟨fun a b ha hb s t => Value.canonical_append_iff a b s t ha hb,
    fun a b ha hb => Value.canonical_eq_iff ha hb, ?_, ?_,
    fun j k hj hk => (GroupKey.canonical_eq_iff hj hk).symm⟩
  · rintro a b ha hb ⟨rest, h⟩
    obtain ⟨heq, -⟩ := (Value.canonical_append_iff a b rest [] ha hb).mp (by simpa using h)
    exact Value.canonical_eq_of_beq heq
  · intro a b h σ write hasher
    rw [Value.feed, Value.feed, Value.canonical_eq_of_beq h]

theorem canonical_identifies_zeros :
    (Value.tuple [.float ⟨0x8000000000000000⟩, .string "a"]).Bounded ∧
    (Value.tuple [.float .zero, .string "a"]).Bounded ∧
    (Value.tuple [.float ⟨0x8000000000000000⟩, .string "a"]).canonical ++ [7] =
      (Value.tuple [.float .zero, .string "a"]).canonical ++ [7] :=
  ⟨by decide, by decide,
    (canonical_identifies_values.1 _ _ (by decide) (by decide) _ _).mpr ⟨by decide, rfl⟩⟩

end StreamQuery

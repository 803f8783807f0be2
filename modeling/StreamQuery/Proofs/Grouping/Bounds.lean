import StreamQuery.Operator.Group
import StreamQuery.Proofs.Condition.Scalar
import StreamQuery.Proofs.Scope
import StreamQuery.Proofs.Value.Encoding

/-!
# Lengths of evaluated keys

Lengths are 64-bit numbers in memory, and here a premise: `Bounded` records,
scopes and key expressions hold no text, tuple or object that is longer. A key
evaluated from them is `Bounded` as well (`evaluate_bounded`), so its canonical
bytes identify it.
-/

namespace StreamQuery

def Record.Bounded (record : Record) : Prop := ∀ column ∈ record.columns, column.2.Bounded

def Scope.Bounded (scope : Scope) : Prop :=
  ∀ frame ∈ scope.frames, ∀ column ∈ frame, column.2.Bounded

namespace Scalar

mutual

def Bounded : Scalar → Prop
  | .var _ => True
  | .const v => v.Bounded
  | .tuple items => items.length < UInt64.size ∧ BoundedItems items
termination_by structural s => s

def BoundedItems : List Scalar → Prop
  | [] => True
  | s :: rest => Bounded s ∧ BoundedItems rest
termination_by structural items => items

end

end Scalar

/-- The key of a grouping is that of a tuple whose lengths all fit. -/
def Grouping.Bounded (g : Grouping) : Prop := (Scalar.tuple g.key).Bounded

theorem Scope.empty_bounded : Scope.empty.Bounded := by
  simp [Scope.Bounded, Scope.empty]

theorem Scope.Bounded.withRecord {scope : Scope} {record : Record} (hs : scope.Bounded)
    (hr : record.Bounded) : (scope.withRecord record).Bounded := by
  intro frame hf column hc
  rcases List.mem_cons.mp hf with rfl | hf
  · exact hr column hc
  · exact hs frame hf column hc

theorem Scope.get_bounded {scope : Scope} (hs : scope.Bounded) (h : scope.get name = .ok v) :
    v.Bounded := by
  obtain ⟨frame, hf, name, hc⟩ := Scope.mem_of_get h
  exact hs frame hf (name, v) hc

namespace Scalar

mutual

theorem eval_bounded {scope : Scope} (hs : scope.Bounded) : (s : Scalar) → (v : Value) →
    s.Bounded → eval scope s = .ok v → v.Bounded
  | .var name, v, _, h => Scope.get_bounded hs h
  | .const w, v, hb, h => by
    cases h
    exact hb
  | .tuple items, v, hb, h => by
    simp only [eval, bind_ok, pure_ok] at h
    obtain ⟨vs, hvs, rfl⟩ := h
    exact ⟨by rw [evalItems_length hvs]; exact hb.1, evalItems_bounded hs items vs hb.2 hvs⟩
termination_by structural s => s

theorem evalItems_bounded {scope : Scope} (hs : scope.Bounded) : (items : List Scalar) →
    (vs : List Value) → BoundedItems items → evalItems scope items = .ok vs →
    Value.BoundedItems vs
  | [], vs, _, h => by
    cases h
    trivial
  | s :: rest, vs, hb, h => by
    simp only [evalItems, bind_ok, pure_ok] at h
    obtain ⟨v, hv, ws, hws, rfl⟩ := h
    exact ⟨eval_bounded hs s v hb.1 hv, evalItems_bounded hs rest ws hb.2 hws⟩
termination_by structural items => items

end

end Scalar

namespace Grouping

variable {g : Grouping} {scope : Scope} {record : Record} {key : GroupKey} {inputs : List Value}

theorem evaluate_ok : g.evaluate scope record = .ok (key, inputs) ↔
    Scalar.evalItems (scope.withRecord record) g.key = .ok key.values ∧
      Scalar.evalItems (scope.withRecord record) g.inputs = .ok inputs := by
  simp only [evaluate, bind_ok, pure_ok, Prod.mk.injEq]
  constructor
  · rintro ⟨values, hk, vs, hi, rfl, rfl⟩
    exact ⟨hk, hi⟩
  · rintro ⟨hk, hi⟩
    exact ⟨key.values, hk, inputs, hi, rfl, rfl⟩

theorem evaluate_error : g.evaluate scope record = .error e ↔
    Scalar.evalItems (scope.withRecord record) g.key = .error e ∨
      ∃ values, Scalar.evalItems (scope.withRecord record) g.key = .ok values ∧
        Scalar.evalItems (scope.withRecord record) g.inputs = .error e := by
  simp [evaluate, bind_error, pure, Except.pure]

theorem evaluate_key_length (h : g.evaluate scope record = .ok (key, inputs)) :
    key.values.length = g.key.length :=
  Scalar.evalItems_length (evaluate_ok.mp h).1

theorem evaluate_inputs_length (h : g.evaluate scope record = .ok (key, inputs)) :
    inputs.length = g.functions.length :=
  (Scalar.evalItems_length (evaluate_ok.mp h).2).trans g.inputs_length

theorem evaluate_bounded (hg : g.Bounded) (hs : scope.Bounded)
    (hr : record.Bounded) (h : g.evaluate scope record = .ok (key, inputs)) : key.Bounded := by
  obtain ⟨hk, -⟩ := evaluate_ok.mp h
  exact ⟨by rw [Scalar.evalItems_length hk]; exact hg.1,
    Scalar.evalItems_bounded (hs.withRecord hr) g.key key.values hg.2 hk⟩

-- ---------------------------------------------------------------------------
-- A small case
-- ---------------------------------------------------------------------------

def countByX : Grouping :=
  ⟨[.var ⟨none, "x"⟩], [.var ⟨none, "x"⟩], [.count], [⟨none, "x"⟩, ⟨none, "n"⟩], .updates, rfl, rfl⟩

def zeros : List Record :=
  [⟨[(⟨none, "x"⟩, .float ⟨0x8000000000000000⟩)], false⟩, ⟨[(⟨none, "x"⟩, .float .zero)], false⟩]

theorem countByX_bounded : countByX.Bounded :=
  ⟨by decide, trivial, trivial⟩

theorem zeros_bounded : ∀ record ∈ zeros, record.Bounded := by
  simp [zeros, Record.Bounded, Value.Bounded]

end Grouping

end StreamQuery

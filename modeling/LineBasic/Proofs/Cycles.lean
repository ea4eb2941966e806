import LineBasic.Value.Display
import LineBasic.Value.Equality
import Mathlib.Data.List.Perm.Subperm
import Mathlib.Data.List.ProdSigma

/-!
# Arrays that contain themselves

The text of an array goes through the arrays inside it, and so does the comparison of two
arrays. Both are cut off where they come back to what is under way further out. Here are the
rules for that, without any bound on the number of levels. A derivation is the finite tree of
all nested texts or comparisons.

* `Heap.Shows`, `Heap.Compares` : the rules for texts and comparisons.
* `Heap.Shows.eq`, `Heap.Compares.eq` : there is one text, and one answer.
* `Heap.shows_display`, `Heap.compares_equals` : whatever the arrays contain there is a
  derivation, of what `Value.display` and `Value.equals` compute. So the number of levels that
  these have room for is enough.
-/

namespace LineBasic

/-- The text of an element, given the texts of arrays. -/
def Value.itemText (texts : SequenceId → String) : Value → String
  | .array inner => texts inner
  | other => other.plainText

/-- Equality of two elements, given the answers for arrays. -/
def Value.itemsEqual (answers : SequenceId → SequenceId → Bool) : Value × Value → Bool
  | (.array i, .array j) => answers i j
  | (x, y) => x.plainEquals y

namespace Heap

variable {h : Heap}

/-- Only a sequence that is stored has elements. -/
theorem lt_size_of_mem_sequence {id : SequenceId} {v : Value} (hv : v ∈ (h.sequence id).toList) :
    id < h.size := by
  by_contra hout
  simp [sequence, Array.getD, hout] at hv

/-! ### Texts -/

/-- The text of an array inside the arrays `path`. -/
inductive Shows (h : Heap) : List SequenceId → SequenceId → String → Prop
  /-- An array that is being shown already. -/
  | again {path : List SequenceId} {id : SequenceId} (inside : id ∈ path) :
      Shows h path id "\x7b...\x7d"
  | items {path : List SequenceId} {id : SequenceId} {texts : SequenceId → String}
      (outside : id ∉ path)
      (each : ∀ inner, .array inner ∈ (h.sequence id).toList →
        Shows h (id :: path) inner (texts inner)) :
      Shows h path id
        ("\x7b" ++ ", ".intercalate ((h.sequence id).toList.map (Value.itemText texts)) ++ "\x7d")

/-- An array has one text only. -/
theorem Shows.eq {path : List SequenceId} {id : SequenceId} {s t : String} (hs : h.Shows path id s)
    (ht : h.Shows path id t) : s = t := by
  induction hs generalizing t with
  | again inside =>
    cases ht with
    | again => rfl
    | items outside => exact absurd inside outside
  | @items path id texts outside each ih =>
    cases ht with
    | again inside => exact absurd inside outside
    | @items _ _ texts' _ each' =>
      have hitems : (h.sequence id).toList.map (Value.itemText texts) =
          (h.sequence id).toList.map (Value.itemText texts') := by
        refine List.map_congr_left fun v hv => ?_
        cases v with
        | array inner => exact ih inner hv (each' inner hv)
        | _ => rfl
      rw [hitems]

/-- With room for more levels than there are sequences besides those of the
path, the text is found. -/
theorem shows_arrayText {depth : Nat} {path : List SequenceId} (id : SequenceId)
    (nodup : path.Nodup) (stored : ∀ i ∈ path, i < h.size) (room : h.size < depth + path.length) :
    h.Shows path id (Value.arrayText h depth path id) := by
  induction depth generalizing path id with
  | zero =>
    have hsub : path ⊆ List.range h.size := fun i hi => List.mem_range.2 (stored i hi)
    have hlength := (nodup.subperm hsub).length_le
    simp only [List.length_range] at hlength
    omega
  | succ depth ih =>
    by_cases hid : id ∈ path
    · have htext : Value.arrayText h (depth + 1) path id = "\x7b...\x7d" := by
        simp [Value.arrayText, hid]
      rw [htext]
      exact .again hid
    · have htext : Value.arrayText h (depth + 1) path id = "\x7b" ++ ", ".intercalate
          ((h.sequence id).toList.map (Value.itemText (Value.arrayText h depth (id :: path))))
            ++ "\x7d" := by
        simp only [Value.arrayText, List.contains_eq_mem, hid, decide_false,
          Bool.false_eq_true, if_false]
        congr 3
      rw [htext]
      refine .items hid fun inner hinner => ?_
      have hstored := lt_size_of_mem_sequence hinner
      refine ih inner (List.nodup_cons.2 ⟨hid, nodup⟩) (List.forall_mem_cons.2 ⟨hstored, stored⟩) ?_
      simp only [List.length_cons]
      omega

/-- Every array has a text. -/
theorem shows_display (h : Heap) (id : SequenceId) : h.Shows [] id (Value.display h (.array id)) :=
  shows_arrayText id .nil (by simp) (by simp only [List.length_nil]; omega)

/-! ### Comparisons -/

/-- The elements of two arrays, side by side. -/
def pairs (h : Heap) (a b : SequenceId) : List (Value × Value) :=
  (h.sequence a).toList.zip (h.sequence b).toList

/-- The answer for two arrays inside the pairs `within`. -/
inductive Compares (h : Heap) :
    List (SequenceId × SequenceId) → SequenceId → SequenceId → Bool → Prop
  | same {within : List (SequenceId × SequenceId)} {a : SequenceId} : Compares h within a a true
  /-- A pair that is being compared already. -/
  | again {within : List (SequenceId × SequenceId)} {a b : SequenceId} (inside : (a, b) ∈ within) :
      Compares h within a b true
  | lengths {within : List (SequenceId × SequenceId)} {a b : SequenceId} (differ : a ≠ b)
      (outside : (a, b) ∉ within) (sizes : (h.sequence a).size ≠ (h.sequence b).size) :
      Compares h within a b false
  | items {within : List (SequenceId × SequenceId)} {a b : SequenceId}
      {answers : SequenceId → SequenceId → Bool} (differ : a ≠ b) (outside : (a, b) ∉ within)
      (sizes : (h.sequence a).size = (h.sequence b).size)
      (each : ∀ i j, (.array i, .array j) ∈ h.pairs a b →
        Compares h ((a, b) :: within) i j (answers i j)) :
      Compares h within a b ((h.pairs a b).all (Value.itemsEqual answers))

/-- There is one answer only. -/
theorem Compares.eq {within : List (SequenceId × SequenceId)} {a b : SequenceId} {r r' : Bool}
    (hr : h.Compares within a b r) (hr' : h.Compares within a b r') : r = r' := by
  induction hr generalizing r' with
  | same =>
    cases hr' with
    | same => rfl
    | again => rfl
    | lengths differ => exact absurd rfl differ
    | items differ => exact absurd rfl differ
  | again inside =>
    cases hr' with
    | same => rfl
    | again => rfl
    | lengths _ outside => exact absurd inside outside
    | items _ outside => exact absurd inside outside
  | lengths differ outside sizes =>
    cases hr' with
    | same => exact absurd rfl differ
    | again inside => exact absurd inside outside
    | lengths => rfl
    | items _ _ sizes' => exact absurd sizes' sizes
  | @items within a b answers differ outside sizes each ih =>
    cases hr' with
    | same => exact absurd rfl differ
    | again inside => exact absurd inside outside
    | lengths _ _ sizes' => exact absurd sizes sizes'
    | @items _ _ _ answers' _ _ _ each' =>
      have hitems :
          ∀ p ∈ h.pairs a b, Value.itemsEqual answers p = Value.itemsEqual answers' p := by
        intro p hp
        obtain ⟨x, y⟩ := p
        cases x with
        | array i =>
          cases y with
          | array j => exact ih i j hp (each' i j hp)
          | _ => rfl
        | _ => rfl
      rw [Bool.eq_iff_iff, List.all_eq_true, List.all_eq_true]
      exact forall₂_congr fun p hp => by rw [hitems p hp]

/-- With room for more levels than there are pairs of sequences besides those
around, the answer is found. -/
theorem compares_arraysEqual {depth : Nat} {within : List (SequenceId × SequenceId)}
    (a b : SequenceId) (nodup : within.Nodup) (stored : ∀ p ∈ within, p.1 < h.size ∧ p.2 < h.size)
    (room : h.size * h.size < depth + within.length) :
    h.Compares within a b (Value.arraysEqual h depth within a b) := by
  induction depth generalizing within a b with
  | zero =>
    have hsub : within ⊆ List.range h.size ×ˢ List.range h.size := by
      intro p hp
      obtain ⟨i, j⟩ := p
      have hp := stored _ hp
      exact List.mem_product.2 ⟨List.mem_range.2 hp.1, List.mem_range.2 hp.2⟩
    have hlength := (nodup.subperm hsub).length_le
    simp only [List.length_product, List.length_range] at hlength
    omega
  | succ depth ih =>
    by_cases hsame : a = b
    · have hanswer : Value.arraysEqual h (depth + 1) within a b = true := by
        simp [Value.arraysEqual, hsame]
      rw [hanswer, hsame]
      exact .same
    by_cases hinside : (a, b) ∈ within
    · have hanswer : Value.arraysEqual h (depth + 1) within a b = true := by
        simp [Value.arraysEqual, hinside]
      rw [hanswer]
      exact .again hinside
    have hunfold : Value.arraysEqual h (depth + 1) within a b =
        (decide ((h.sequence a).size = (h.sequence b).size) &&
          (h.pairs a b).all (Value.itemsEqual (Value.arraysEqual h depth ((a, b) :: within)))) := by
      simp only [Value.arraysEqual, hsame, hinside, List.contains_eq_mem,
        decide_false, Bool.or_self, Bool.false_eq_true, if_false, Array.length_toList]
      congr 2
    rw [hunfold]
    by_cases hsizes : (h.sequence a).size = (h.sequence b).size
    · simp only [hsizes, decide_true, Bool.true_and]
      refine .items hsame hinside hsizes fun i j hij => ?_
      have hstored : a < h.size ∧ b < h.size :=
        ⟨lt_size_of_mem_sequence (List.of_mem_zip hij).1,
          lt_size_of_mem_sequence (List.of_mem_zip hij).2⟩
      refine ih i j (List.nodup_cons.2 ⟨hinside, nodup⟩)
        (List.forall_mem_cons.2 ⟨hstored, stored⟩) ?_
      simp only [List.length_cons]
      omega
    · simp only [hsizes, decide_false, Bool.false_and]
      exact .lengths hsame hinside hsizes

/-- Every comparison of two arrays has an answer. -/
theorem compares_equals (h : Heap) (a b : SequenceId) :
    h.Compares [] a b (Value.equals h (.array a) (.array b)) :=
  compares_arraysEqual a b .nil (by simp) (by simp only [List.length_nil]; omega)

end Heap
end LineBasic

import LineBasic.Proofs.Cycles
import LineBasic.Value.Arithmetic
import Mathlib.Data.List.Zip

/-!
# Equal arrays

Arrays can contain themselves, so that there is no last element to compare. Two arrays are equal if
nothing tells them apart: if they stand in a relation under which any two arrays are the same array,
or have elements that agree one by one. That a comparison takes the pairs further out as equal is
then no guess, and it does not matter in which order it goes through the elements.

* `Heap.IsBisimulation` : a relation of arrays that their elements respect.
* `Heap.UpTo` : the same for a comparison that is under way, up to the pairs around it.
* `Heap.Decides` : the rules for comparisons that take the elements in any order,
  and stop at a difference.
* `Heap.Decides.eq_true_iff` : all of them find out whether there is such a relation.
* `equality_is_bisimilarity` : so does the operator `=`.
-/

namespace LineBasic

/-- Two elements agree: they are related arrays, or they are not both arrays and are equal. -/
def Value.Agree (R : SequenceId → SequenceId → Prop) : Value × Value → Prop
  | (.array i, .array j) => R i j
  | (x, y) => x.plainEquals y = true

theorem Value.Agree.mono {R S : SequenceId → SequenceId → Prop} {p : Value × Value}
    (h : Value.Agree R p) (le : ∀ i j, R i j → S i j) : Value.Agree S p := by
  obtain ⟨x, y⟩ := p
  cases x with
  | array i =>
    cases y with
    | array j => exact le i j h
    | _ => exact h
  | _ => exact h

/-- Elements agree if they are equal apart from arrays, and if arrays are related. -/
theorem Value.agree_of_itemsEqual {R : SequenceId → SequenceId → Prop} {p : Value × Value}
    (equal : Value.itemsEqual (fun _ _ => true) p = true)
    (each : ∀ i j, p = (.array i, .array j) → R i j) :
    Value.Agree R p := by
  obtain ⟨x, y⟩ := p
  cases x with
  | array i =>
    cases y with
    | array j => exact each i j rfl
    | _ => exact equal
  | _ => exact equal

theorem Value.Agree.itemsEqual {R : SequenceId → SequenceId → Prop} {p : Value × Value}
    (h : Value.Agree R p) : Value.itemsEqual (fun _ _ => true) p = true := by
  obtain ⟨x, y⟩ := p
  cases x with
  | array i =>
    cases y with
    | array j => rfl
    | _ => exact h
  | _ => exact h

namespace Heap

variable {h : Heap} {a b : SequenceId} {within : List (SequenceId × SequenceId)}

/-- Two arrays have the same length, and their elements agree. -/
structure Matches (h : Heap) (R : SequenceId → SequenceId → Prop) (a b : SequenceId) : Prop where
  sizes : (h.sequence a).size = (h.sequence b).size
  items : ∀ p ∈ h.pairs a b, Value.Agree R p

/-- Arrays that are related are the same array, or match. -/
def IsBisimulation (h : Heap) (R : SequenceId → SequenceId → Prop) : Prop :=
  ∀ a b, R a b → a = b ∨ h.Matches R a b

theorem Matches.mono {R S : SequenceId → SequenceId → Prop} (hm : h.Matches R a b)
    (le : ∀ i j, R i j → S i j) : h.Matches S a b :=
  ⟨hm.sizes, fun p hp => (hm.items p hp).mono le⟩

/-- Two arrays cannot be told apart by a comparison inside the pairs `within`,
which are not looked at. -/
def UpTo (h : Heap) (within : List (SequenceId × SequenceId)) (a b : SequenceId) : Prop :=
  ∃ R : SequenceId → SequenceId → Prop, R a b ∧
    ∀ i j, R i j → (i, j) ∈ within ∨ i = j ∨ h.Matches R i j

namespace UpTo

/-- The arrays that cannot be told apart are a relation of that kind themselves. -/
theorem cases (hu : h.UpTo within a b) :
    (a, b) ∈ within ∨ a = b ∨ h.Matches (h.UpTo within) a b := by
  obtain ⟨R, hab, hR⟩ := hu
  rcases hR a b hab with hin | heq | hm
  · exact .inl hin
  · exact .inr (.inl heq)
  · exact .inr (.inr (hm.mono fun i j hij => ⟨R, hij, hR⟩))

/-- Once the elements of a pair match inside of it, the pair itself need not be assumed any more. -/
theorem of_matches (hm : h.Matches (h.UpTo ((a, b) :: within)) a b) : h.UpTo within a b := by
  refine ⟨fun i j => h.UpTo ((a, b) :: within) i j, ⟨fun i j => i = a ∧ j = b, ⟨rfl, rfl⟩, ?_⟩, ?_⟩
  · rintro i j ⟨rfl, rfl⟩
    exact .inl (.head _)
  · intro i j hij
    rcases hij.cases with hin | heq | hij
    · rcases List.mem_cons.1 hin with heq | hin
      · obtain ⟨rfl, rfl⟩ := Prod.mk.inj heq
        exact .inr (.inr hm)
      · exact .inl hin
    · exact .inr (.inl heq)
    · exact .inr (.inr hij)

/-- At the outermost level nothing is assumed. -/
theorem nil_iff : h.UpTo [] a b ↔ ∃ R, h.IsBisimulation R ∧ R a b := by
  constructor
  · rintro ⟨R, hab, hR⟩
    exact ⟨R, fun i j hij => (hR i j hij).resolve_left (List.not_mem_nil), hab⟩
  · rintro ⟨R, hR, hab⟩
    exact ⟨R, hab, fun i j hij => .inr (hR i j hij)⟩

end UpTo

/-! ### Comparisons in any order -/

/-- The answer for two arrays inside the pairs `within`, if the elements may be compared in any
order. An unequal pair of elements is an answer, whatever the others are. -/
inductive Decides (h : Heap) :
    List (SequenceId × SequenceId) → SequenceId → SequenceId → Bool → Prop
  | same {within : List (SequenceId × SequenceId)} {a : SequenceId} : Decides h within a a true
  | again {within : List (SequenceId × SequenceId)} {a b : SequenceId} (inside : (a, b) ∈ within) :
      Decides h within a b true
  | lengths {within : List (SequenceId × SequenceId)} {a b : SequenceId} (differ : a ≠ b)
      (outside : (a, b) ∉ within) (sizes : (h.sequence a).size ≠ (h.sequence b).size) :
      Decides h within a b false
  | values {within : List (SequenceId × SequenceId)} {a b : SequenceId} {p : Value × Value}
      (differ : a ≠ b) (outside : (a, b) ∉ within) (met : p ∈ h.pairs a b)
      (unequal : Value.itemsEqual (fun _ _ => true) p = false) : Decides h within a b false
  | arrays {within : List (SequenceId × SequenceId)} {a b i j : SequenceId} (differ : a ≠ b)
      (outside : (a, b) ∉ within) (met : (.array i, .array j) ∈ h.pairs a b)
      (unequal : Decides h ((a, b) :: within) i j false) : Decides h within a b false
  | items {within : List (SequenceId × SequenceId)} {a b : SequenceId} (differ : a ≠ b)
      (outside : (a, b) ∉ within) (sizes : (h.sequence a).size = (h.sequence b).size)
      (equal : ∀ p ∈ h.pairs a b, Value.itemsEqual (fun _ _ => true) p = true)
      (each : ∀ i j, (.array i, .array j) ∈ h.pairs a b → Decides h ((a, b) :: within) i j true) :
      Decides h within a b true

namespace Decides

/-- Arrays that are found equal cannot be told apart. -/
theorem upTo {answer : Bool} (hd : h.Decides within a b answer) :
    answer = true → h.UpTo within a b := by
  induction hd with
  | same => exact fun _ => ⟨Eq, rfl, fun _ _ heq => .inr (.inl heq)⟩
  | @again within a b inside =>
    refine fun _ => ⟨fun i j => i = a ∧ j = b, ⟨rfl, rfl⟩, ?_⟩
    rintro i j ⟨rfl, rfl⟩
    exact .inl inside
  | items differ outside sizes equal each ih =>
    refine fun _ => .of_matches ⟨sizes, fun p hp => ?_⟩
    exact Value.agree_of_itemsEqual (equal p hp) fun i j heq => ih i j (heq ▸ hp) rfl
  | _ => nofun

/-- Arrays that are found unequal can be told apart, even if the pairs around them cannot. -/
theorem eq_true {answer : Bool} {R : SequenceId → SequenceId → Prop} (hR : h.IsBisimulation R)
    (hd : h.Decides within a b answer) : R a b → answer = true := by
  induction hd with
  | same => exact fun _ => rfl
  | again => exact fun _ => rfl
  | lengths differ _ sizes =>
    intro hab
    exact absurd ((hR _ _ hab).resolve_left differ).sizes sizes
  | values differ _ met unequal =>
    intro hab
    have hagree := ((hR _ _ hab).resolve_left differ).items _ met
    exact absurd hagree.itemsEqual (by simp [unequal])
  | arrays differ _ met _ ih =>
    intro hab
    exact ih (((hR _ _ hab).resolve_left differ).items _ met)
  | items => exact fun _ => rfl

/-- In whatever order the elements are compared, two arrays are found equal exactly if a relation
that the elements respect relates them. -/
theorem eq_true_iff {answer : Bool} (hd : h.Decides [] a b answer) :
    answer = true ↔ ∃ R, h.IsBisimulation R ∧ R a b := by
  constructor
  · exact fun htrue => UpTo.nil_iff.1 (hd.upTo htrue)
  · rintro ⟨R, hR, hab⟩
    exact hd.eq_true hR hab

end Decides

/-- Comparing the elements from the first to the last is one of the orders. -/
theorem Compares.decides {answer : Bool} (hc : h.Compares within a b answer) :
    h.Decides within a b answer := by
  induction hc with
  | same => exact .same
  | again inside => exact .again inside
  | lengths differ outside sizes => exact .lengths differ outside sizes
  | @items within a b answers differ outside sizes each ih =>
    cases hall : (h.pairs a b).all (Value.itemsEqual answers) with
    | true =>
      rw [List.all_eq_true] at hall
      refine .items differ outside sizes (fun p hp => ?_) fun i j hij => ?_
      · obtain ⟨x, y⟩ := p
        have hequal := hall (x, y) hp
        cases x with
        | array i =>
          cases y with
          | array j => rfl
          | _ => exact hequal
        | _ => exact hequal
      · have hequal : answers i j = true := hall _ hij
        exact hequal ▸ ih i j hij
    | false =>
      obtain ⟨p, hp, hunequal⟩ := List.all_eq_false.1 hall
      rw [Bool.not_eq_true] at hunequal
      obtain ⟨x, y⟩ := p
      cases x with
      | array i =>
        cases y with
        | array j =>
          have hunequal : answers i j = false := hunequal
          exact .arrays differ outside hp (hunequal ▸ ih i j hp)
        | _ => exact .values differ outside hp hunequal
      | _ => exact .values differ outside hp hunequal

end Heap

/-! ### The other way round -/

namespace Binary64

open Float.Model

theorem compare_swap_sign (s t : UnpackedFloat.Sign) : (compare s t).swap = compare t s := by
  cases s <;> cases t <;> rfl

theorem compare_swap (x y : UnpackedFloat) : (x.compare y).map Ordering.swap = y.compare x := by
  cases x with
  | notANumber => cases y <;> rfl
  | infinity s =>
    cases y with
    | infinity t => exact congrArg some (compare_swap_sign s t)
    | _ => cases s <;> rfl
  | zero s =>
    cases y with
    | notANumber => rfl
    | zero t => rfl
    | infinity t => cases t <;> rfl
    | finite t n f _ => cases t <;> rfl
  | finite s m e _ =>
    have hswap (f : Int) (n : Nat) :
        ((compare e f).then (compare m n)).swap = (compare f e).then (compare n m) := by
      rw [Ordering.swap_then, Std.OrientedOrd.eq_swap (a := f), Std.OrientedOrd.eq_swap (a := n)]
    cases y with
    | infinity t => cases t <;> rfl
    | notANumber => cases s <;> rfl
    | zero t => cases s <;> rfl
    | finite t n f _ =>
      -- two numbers of one sign are compared by their sizes, and others by their signs
      cases s <;> cases t
      · exact congrArg (fun o => some o.swap) (hswap f n)
      · rfl
      · rfl
      · exact congrArg some (hswap f n)

theorem beq_comm (x y : Float) : (x == y) = (y == x) := by
  show (x.toModel.unpack.compare y.toModel.unpack == some .eq) =
    (y.toModel.unpack.compare x.toModel.unpack == some .eq)
  rw [← compare_swap x.toModel.unpack]
  cases x.toModel.unpack.compare y.toModel.unpack with
  | none => rfl
  | some o => cases o <;> rfl

end Binary64

theorem Value.plainEquals_comm (x y : Value) : x.plainEquals y = y.plainEquals x := by
  cases x <;> cases y <;> simp only [plainEquals, eq_comm, Binary64.beq_comm, Bool.and_comm]

namespace Heap

variable {h : Heap} {a b : SequenceId}

theorem Matches.symm {R : SequenceId → SequenceId → Prop} (hm : h.Matches R a b) :
    h.Matches (fun i j => R j i) b a := by
  refine ⟨hm.sizes.symm, fun p hp => ?_⟩
  rw [pairs, ← List.zip_swap, List.mem_map] at hp
  obtain ⟨⟨x, y⟩, hp, rfl⟩ := hp
  have hagree := hm.items _ hp
  cases x with
  | array i =>
    cases y with
    | array j => exact hagree
    | _ => exact (Value.plainEquals_comm ..).trans hagree
  | _ => cases y <;> exact (Value.plainEquals_comm ..).trans hagree

theorem IsBisimulation.symm {R : SequenceId → SequenceId → Prop} (hR : h.IsBisimulation R) :
    h.IsBisimulation fun a b => R b a :=
  fun a b hab => (hR b a hab).imp Eq.symm Matches.symm

/-- What is equal is equal the other way round. -/
theorem equals_comm (h : Heap) (a b : SequenceId) :
    Value.equals h (.array a) (.array b) = Value.equals h (.array b) (.array a) := by
  have himp (a b : SequenceId) (hab : Value.equals h (.array a) (.array b) = true) :
      Value.equals h (.array b) (.array a) = true := by
    obtain ⟨R, hR, hR'⟩ := (h.compares_equals a b).decides.eq_true_iff.1 hab
    exact (h.compares_equals b a).decides.eq_true_iff.2 ⟨_, hR.symm, hR'⟩
  exact Bool.eq_iff_iff.2 ⟨himp a b, himp b a⟩

end Heap

/-- Any two arrays can be compared, whatever they contain: the comparison of their elements,
and of the arrays inside them, comes to an end. The operator `=` gives true exactly if a
relation in which any two arrays are the same array or have elements that agree relates the
two. So the answer does not depend on the order in which elements are compared, nor on which of
the arrays is on which side. -/
theorem equality_is_bisimilarity (h : Heap) (l r : SequenceId) :
    (∃ answer, h.Compares [] l r answer ∧
      Value.binary h .equal (.array l) (.array r) = .ok (.bool answer) ∧
      Value.binary h .notEqual (.array l) (.array r) = .ok (.bool !answer) ∧
      (answer = true ↔ ∃ R, h.IsBisimulation R ∧ R l r) ∧
      ∀ other, h.Decides [] l r other → other = answer) ∧
    Value.binary h .equal (.array l) (.array r) = Value.binary h .equal (.array r) (.array l) := by
  have hends := h.compares_equals l r
  refine ⟨⟨_, hends, rfl, rfl, hends.decides.eq_true_iff, fun other hother => ?_⟩, ?_⟩
  · rw [Bool.eq_iff_iff, hother.eq_true_iff, hends.decides.eq_true_iff]
  · exact congrArg (fun answer => Except.ok (Value.bool answer)) (h.equals_comm l r)

/-- Two arrays, each of which contains the other one, and one that contains itself. -/
example :
    Value.equals #[#[.array 1], #[.array 0], #[.array 2]] (.array 0) (.array 2) = true := by decide

end LineBasic

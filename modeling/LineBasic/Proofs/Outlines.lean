import LineBasic.Proofs.Cycles
import Mathlib.Logic.Relation

/-!
# The texts of arrays

The text of an array is that of a finite tree. What stands in the tree at a place is settled by the
way there, from the outermost array through elements of elements: dots if the same array was on the
way already, and all of its elements if not. Whether the array occurs elsewhere does not matter.

* `Outline` : trees of texts, `Outline.induction` : how to go through them,
  `Outline.text` : how they are written.
* `Heap.valueAt?` : the value at the end of a way.
* `Heap.Draws` : an outline that shows what there is, and cuts off what comes back.
* `Outline.eq_of_draws` : there is one such outline only; `Heap.Shows.outline` :
  its text is what is shown.
* `Heap.display_of_acyclic` : where no array comes back the text is put together
  from those of the elements.
* `rendering_cuts_back_edges` : the text of any array.
-/

namespace LineBasic

/-- What is shown of a value. -/
inductive Outline where
  | word (text : String)
  | dots
  | items (each : List Outline)

namespace Outline

/-- What is true of an outline whenever it is true of all outlines in it, is
true of all outlines. -/
theorem induction {P : Outline → Prop} (word : ∀ s, P (.word s)) (dots : P .dots)
    (items : ∀ each, (∀ o ∈ each, P o) → P (.items each)) (o : Outline) : P o :=
  @Outline.rec P (fun os => ∀ o ∈ os, P o) word dots items (by simp)
    (fun _ _ ho hos => List.forall_mem_cons.2 ⟨ho, hos⟩) o

mutual

/-- How an outline is written. -/
def text : Outline → String
  | word s => s
  | dots => "\x7b...\x7d"
  | items each => "\x7b" ++ ", ".intercalate (texts each) ++ "\x7d"

/-- How outlines are written one by one. -/
def texts : List Outline → List String
  | [] => []
  | o :: os => o.text :: texts os

end

theorem texts_eq (os : List Outline) : texts os = os.map text := by
  induction os with
  | nil => rfl
  | cons o os ih => rw [texts, ih, List.map_cons]

/-- The part of an outline at the end of a way. -/
def at? : Outline → List Nat → Option Outline
  | o, [] => some o
  | items each, i :: way => each[i]?.bind fun o => o.at? way
  | _, _ :: _ => none

@[simp] theorem at?_nil (o : Outline) : o.at? [] = some o := by
  cases o <;> rfl

end Outline

namespace Heap

variable {h : Heap} {id : SequenceId} {path : List SequenceId}

/-- The value at the end of a way: each number on it is the place of an element. -/
def valueAt? (h : Heap) : Value → List Nat → Option Value
  | v, [] => some v
  | .array id, i :: way => (h.sequence id)[i]?.bind fun v => h.valueAt? v way
  | _, _ :: _ => none

@[simp] theorem valueAt?_nil (v : Value) : h.valueAt? v [] = some v := by
  cases v <;> rfl

theorem valueAt?_cons (id : SequenceId) (i : Nat) (way : List Nat) :
    h.valueAt? (.array id) (i :: way) = (h.sequence id)[i]?.bind fun v => h.valueAt? v way := rfl

/-- An array was met before, on the way from `v` or among the arrays of `path` around it. -/
def Met (h : Heap) (path : List SequenceId) (v : Value) (way : List Nat)
    (inner : SequenceId) : Prop :=
  inner ∈ path ∨ ∃ before, before <+: way ∧ before ≠ way ∧ h.valueAt? v before = some (.array inner)

/-- What an outline has at the end of a way if the value there is `w`. -/
inductive Draws.Part (h : Heap) (path : List SequenceId) (v : Value) (way : List Nat) :
    Value → Outline → Prop
  | word {w : Value} (plain : ∀ inner, w ≠ .array inner) : Part h path v way w (.word w.plainText)
  | dots {inner : SequenceId} (met : h.Met path v way inner) :
      Part h path v way (.array inner) .dots
  | items {inner : SequenceId} {each : List Outline} (new : ¬ h.Met path v way inner)
      (length : each.length = (h.sequence inner).size) :
      Part h path v way (.array inner) (.items each)

/-- An outline shows the value `v` inside the arrays `path`: at the end of each way
there is what has to be. -/
def Draws (h : Heap) (path : List SequenceId) (v : Value) (o : Outline) : Prop :=
  ∀ way part, o.at? way = some part → ∃ w, h.valueAt? v way = some w ∧
    Draws.Part h path v way w part

/-! ### Inside an array -/

theorem valueAt?_item {v : Value} {i : Nat} (hv : (h.sequence id)[i]? = some v) (way : List Nat) :
    h.valueAt? (.array id) (i :: way) = h.valueAt? v way := by
  rw [valueAt?_cons, hv, Option.bind_some]

/-- On the way through an array to one of its elements, and on from there,
that array is met first. -/
theorem met_item {v : Value} {i : Nat} (hv : (h.sequence id)[i]? = some v) (way : List Nat)
    (inner : SequenceId) :
    h.Met path (.array id) (i :: way) inner ↔ h.Met (id :: path) v way inner := by
  constructor
  · rintro (hin | ⟨before, hpre, hne, hvalue⟩)
    · exact .inl (.tail _ hin)
    · cases before with
      | nil =>
        rw [valueAt?_nil] at hvalue
        cases hvalue
        exact .inl (.head _)
      | cons j before =>
        obtain ⟨rfl, htail⟩ := List.cons_prefix_cons.1 hpre
        rw [valueAt?_item hv] at hvalue
        exact .inr ⟨before, htail, fun heq => hne (heq ▸ rfl), hvalue⟩
  · rintro (hin | ⟨before, hpre, hne, hvalue⟩)
    · rcases List.mem_cons.1 hin with rfl | hin
      · exact .inr ⟨[], List.nil_prefix, by simp, valueAt?_nil _⟩
      · exact .inl hin
    · refine .inr ⟨i :: before, List.cons_prefix_cons.2 ⟨rfl, hpre⟩, by simpa using hne, ?_⟩
      rw [valueAt?_item hv, hvalue]

theorem Draws.part_item {v w : Value} {i : Nat} {way : List Nat} {part : Outline}
    (hv : (h.sequence id)[i]? = some v) :
    Draws.Part h path (.array id) (i :: way) w part ↔ Draws.Part h (id :: path) v way w part := by
  constructor
  · rintro (⟨plain⟩ | ⟨met⟩ | ⟨new, length⟩)
    · exact .word plain
    · exact .dots ((met_item hv way _).1 met)
    · exact .items (fun met => new ((met_item hv way _).2 met)) length
  · rintro (⟨plain⟩ | ⟨met⟩ | ⟨new, length⟩)
    · exact .word plain
    · exact .dots ((met_item hv way _).2 met)
    · exact .items (fun met => new ((met_item hv way _).1 met)) length

/-- The outline of an array has the outlines of its elements in it. -/
theorem Draws.item {each : List Outline} {v : Value} {o : Outline} {i : Nat}
    (hd : h.Draws path (.array id) (.items each)) (hv : (h.sequence id)[i]? = some v)
    (ho : each[i]? = some o) : h.Draws (id :: path) v o := by
  intro way part hpart
  have hat : (Outline.items each).at? (i :: way) = some part := by
    rw [Outline.at?, ho, Option.bind_some, hpart]
  obtain ⟨w, hw, hfit⟩ := hd (i :: way) part hat
  exact ⟨w, (valueAt?_item hv way).symm.trans hw, (part_item hv).1 hfit⟩

/-- What an outline starts with. -/
theorem Draws.root {v : Value} {o : Outline} (hd : h.Draws path v o) :
    Draws.Part h path v [] v o := by
  obtain ⟨w, hw, hpart⟩ := hd [] o (Outline.at?_nil o)
  rw [valueAt?_nil] at hw
  cases hw
  exact hpart

end Heap

/-- A value has one outline only. -/
theorem Outline.eq_of_draws {h : Heap} (o : Outline) :
    ∀ {path : List SequenceId} {v : Value} {o' : Outline},
    h.Draws path v o → h.Draws path v o' → o = o' := by
  induction o using Outline.induction with
  | word s =>
    intro path v o' hd hd'
    cases hd.root with
    | word plain =>
      cases hd'.root with
      | word => rfl
      | dots => exact absurd rfl (plain _)
      | items => exact absurd rfl (plain _)
  | dots =>
    intro path v o' hd hd'
    cases hd.root with
    | dots met =>
      cases hd'.root with
      | word plain => exact absurd rfl (plain _)
      | dots => rfl
      | items new => exact absurd met new
  | items each ih =>
    intro path v o' hd hd'
    cases hd.root with
    | @items id _ new length =>
      cases hd'.root with
      | word plain => exact absurd rfl (plain _)
      | dots met => exact absurd met new
      | @items _ each' _ length' =>
        refine congrArg items (List.ext_getElem (length.trans length'.symm) fun i hi hi' => ?_)
        have hv : (h.sequence id)[i]? = some (h.sequence id)[i] :=
          Array.getElem?_eq_getElem (length ▸ hi)
        exact ih each[i] (List.getElem_mem hi) (hd.item hv (List.getElem?_eq_getElem hi))
          (hd'.item hv (List.getElem?_eq_getElem hi'))

namespace Heap

variable {h : Heap} {id : SequenceId} {path : List SequenceId}

/-! ### The outline of what is shown -/

/-- The outline of an element, given those of arrays. -/
def itemOutline (outlines : SequenceId → Outline) : Value → Outline
  | .array inner => outlines inner
  | other => .word other.plainText

theorem itemOutline_text (outlines : SequenceId → Outline) (v : Value) :
    (itemOutline outlines v).text = v.itemText fun inner => (outlines inner).text := by
  cases v <;> rfl

theorem draws_word {v : Value} (plain : ∀ inner, v ≠ .array inner) :
    h.Draws path v (.word v.plainText) := by
  intro way part hpart
  cases way with
  | nil =>
    cases hpart
    exact ⟨v, valueAt?_nil v, .word plain⟩
  | cons i way => cases hpart

theorem draws_dots (inside : id ∈ path) : h.Draws path (.array id) .dots := by
  intro way part hpart
  cases way with
  | nil =>
    cases hpart
    exact ⟨_, valueAt?_nil _, .dots (.inl inside)⟩
  | cons i way => cases hpart

theorem draws_items {each : List Outline} (outside : id ∉ path)
    (length : each.length = (h.sequence id).size)
    (hitem : ∀ (i : Nat) (v : Value) (o : Outline), (h.sequence id)[i]? = some v →
      each[i]? = some o → h.Draws (id :: path) v o) :
    h.Draws path (.array id) (.items each) := by
  intro way part hpart
  cases way with
  | nil =>
    cases hpart
    refine ⟨_, valueAt?_nil _, .items ?_ length⟩
    rintro (hin | ⟨before, hpre, hne, -⟩)
    · exact outside hin
    · exact hne (List.prefix_nil.1 hpre)
  | cons i way =>
    obtain ⟨o, ho, hpart⟩ := Option.bind_eq_some_iff.1 hpart
    have hi : i < (h.sequence id).size := length ▸ (List.getElem?_eq_some_iff.1 ho).1
    have hv := Array.getElem?_eq_getElem hi
    obtain ⟨w, hw, hfit⟩ := hitem i _ o hv ho way part hpart
    exact ⟨w, (valueAt?_item hv way).trans hw, (Draws.part_item hv).2 hfit⟩

/-- What is shown is the text of an outline. -/
theorem Shows.outline {s : String} (hs : h.Shows path id s) :
    ∃ o : Outline, h.Draws path (.array id) o ∧ o.text = s := by
  induction hs with
  | again inside => exact ⟨.dots, draws_dots inside, rfl⟩
  | @items path id texts outside each ih =>
    have hchoice (inner : SequenceId) : ∃ o : Outline, .array inner ∈ (h.sequence id).toList →
        h.Draws (id :: path) (.array inner) o ∧ o.text = texts inner := by
      by_cases hinner : .array inner ∈ (h.sequence id).toList
      · obtain ⟨o, ho⟩ := ih inner hinner
        exact ⟨o, fun _ => ho⟩
      · exact ⟨.dots, fun hin => absurd hin hinner⟩
    choose outlines houtlines using hchoice
    refine ⟨.items ((h.sequence id).toList.map (itemOutline outlines)), ?_, ?_⟩
    · refine draws_items outside (by simp) fun i v o hv ho => ?_
      rw [List.getElem?_map, Array.getElem?_toList, hv] at ho
      cases ho
      cases v with
      | array inner =>
        exact (houtlines inner (Array.mem_toList_iff.2 (Array.mem_of_getElem? hv))).1
      | _ => exact draws_word nofun
    · have htexts : (h.sequence id).toList.map (fun v => (itemOutline outlines v).text) =
          (h.sequence id).toList.map (Value.itemText texts) := by
        refine List.map_congr_left fun v hv => ?_
        rw [itemOutline_text]
        cases v with
        | array inner => exact (houtlines inner hv).2
        | _ => rfl
      rw [Outline.text, Outline.texts_eq, List.map_map, ← htexts]
      rfl

/-! ### Arrays that do not come back -/

/-- An array is an element of another one. -/
def Contains (h : Heap) (outer inner : SequenceId) : Prop :=
  .array inner ∈ (h.sequence outer).toList

/-- What is shown depends on those arrays further out only that can come back. -/
theorem Shows.congr_path {s : String} {path' : List SequenceId} (hs : h.Shows path id s)
    (alike : ∀ x, Relation.ReflTransGen h.Contains id x → (x ∈ path ↔ x ∈ path')) :
    h.Shows path' id s := by
  induction hs generalizing path' with
  | again inside => exact .again ((alike _ .refl).1 inside)
  | @items path id texts outside each ih =>
    refine .items (fun inside => outside ((alike _ .refl).2 inside)) fun inner hinner => ?_
    refine ih inner hinner fun x hx => ?_
    rw [List.mem_cons, List.mem_cons, alike x (.head hinner hx)]

/-- The text of an array that does not contain itself, however deep, is put together from the
texts of its elements. -/
theorem display_of_acyclic (acyclic : ¬ Relation.TransGen h.Contains id id) :
    Value.display h (.array id) =
      "\x7b" ++ ", ".intercalate ((h.sequence id).toList.map (Value.display h)) ++ "\x7d" := by
  have hshows := h.shows_display id
  generalize Value.display h (.array id) = s at hshows
  cases hshows with
  | again inside => cases inside
  | @items _ _ texts outside each =>
    have hitems : (h.sequence id).toList.map (Value.itemText texts) =
        (h.sequence id).toList.map (Value.display h) := by
      refine List.map_congr_left fun v hv => ?_
      cases v with
      | array inner =>
        -- the array itself cannot come back, so that it makes no difference that it is being shown
        refine Shows.eq ((each inner hv).congr_path fun x hx => ?_) (h.shows_display inner)
        have hne : x ≠ id := by
          rintro rfl
          exact acyclic (.head' hv hx)
        simp [hne]
      | _ => rfl
    rw [hitems]

end Heap

/-- Showing an array comes to an end, whatever it contains. Its text is that of one outline: at the
end of each way through it an array has dots if it was on that way before, and all of its elements
if not. If no array that can be reached contains itself, however deep, all texts are put together
from those of the elements. -/
theorem rendering_cuts_back_edges (h : Heap) (id : SequenceId) :
    h.Shows [] id (Value.display h (.array id)) ∧
    (∃ o, h.Draws [] (.array id) o ∧ (∀ o', h.Draws [] (.array id) o' → o' = o) ∧
      Value.display h (.array id) = o.text) ∧
    ((∀ b, Relation.ReflTransGen h.Contains id b → ¬ Relation.TransGen h.Contains b b) →
      ∀ b, Relation.ReflTransGen h.Contains id b → Value.display h (.array b) =
        "\x7b" ++ ", ".intercalate ((h.sequence b).toList.map (Value.display h)) ++ "\x7d") := by
  obtain ⟨o, hdraws, htext⟩ := (h.shows_display id).outline
  refine ⟨h.shows_display id, ⟨o, hdraws, fun o' ho' => ?_, htext.symm⟩, fun acyclic b hb => ?_⟩
  · exact o'.eq_of_draws ho' hdraws
  · exact Heap.display_of_acyclic (acyclic b hb)

/-- An array that contains another one twice, in which it comes back itself. -/
example : Value.display #[#[.int 1, .array 1, .array 1], #[.array 0]] (.array 0) =
    "\x7b1, \x7b\x7b...\x7d\x7d, \x7b\x7b...\x7d\x7d\x7d" := by decide

end LineBasic

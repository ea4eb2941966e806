import LineBasic.Proofs.Sound

/-!
# Safety of built-ins

A lemma for each function that built-ins call: its result is no function unless it is one of
the values it was given, it changes no scope, and none of its errors is internal. So it keeps
to any guard. Errors about the number of arguments bear the name of the function, which is a
word and so no operator.

* `Value.binary_checked` : the operators on two values.
* `Builtin.onValues_upholds` : the built-ins that work on values.
-/

namespace LineBasic

variable {G : Guard}

/-! ### Arithmetic -/

namespace Argument

theorem countFault_isInternal {name : String} (h : Text.isWord name = true) (n : Nat)
    (args : List Value) : (countFault name n args).isInternal = false :=
  Error.isInternal_argumentCount h ..

theorem text_checked (name : String) (v : Value) : Checked (fun _ => True) (text name v) := by
  unfold text
  split <;> trivial

theorem whole_checked (name : String) (v : Value) : Checked (fun _ => True) (whole name v) := by
  unfold whole
  split <;> trivial

theorem number_checked (name : String) (v : Value) : Checked (fun _ => True) (number name v) := by
  unfold number
  split <;> trivial

end Argument

/-- The operators on two values. -/
def Operator.isBinary : Operator → Bool
  | plus => true
  | minus => true
  | times => true
  | divide => true
  | floorDivide => true
  | modulo => true
  | power => true
  | equal => true
  | notEqual => true
  | greater => true
  | less => true
  | greaterEqual => true
  | lessEqual => true
  | _ => false

namespace Value

theorem checked_checked (n : Option Int64) : Checked IsPlain (checked n) := by
  cases n <;> trivial

theorem numeric_checked (op : Operator) (onInt : Int64 → Int64 → Option Int64)
    (onFloat : Float → Float → Float) (a b : Value) :
    Checked IsPlain (numeric op onInt onFloat a b) := by
  unfold numeric
  split
  · exact checked_checked _
  · split <;> trivial

theorem divided_checked (op : Operator) (onInt : Int64 → Int64 → Option Int64)
    (onFloat : Float → Float → Float) (a b : Value) :
    Checked IsPlain (divided op onInt onFloat a b) := by
  unfold divided
  split
  · trivial
  · exact numeric_checked ..

theorem quotient_checked (a b : Value) : Checked IsPlain (quotient a b) := by
  unfold quotient
  split
  · split <;> trivial
  · trivial

theorem raised_checked (a b : Value) : Checked IsPlain (raised a b) := by
  unfold raised
  split
  · split
    · exact checked_checked _
    · trivial
  · split <;> trivial

theorem sum_checked (h : Heap) (a b : Value) : Checked IsPlain (sum h a b) := by
  unfold sum
  split
  · trivial
  · trivial
  · exact numeric_checked ..

theorem compared_checked (op : Operator) (test : Ordering → Bool) (a b : Value) :
    Checked IsPlain (compared op test a b) := by
  unfold compared
  split <;> trivial

theorem binary_checked {op : Operator} (binary : op.isBinary = true) (h : Heap) (a b : Value) :
    Checked IsPlain (Value.binary h op a b) := by
  unfold Value.binary
  split
  · exact sum_checked ..
  · exact numeric_checked ..
  · exact numeric_checked ..
  · exact quotient_checked ..
  · exact divided_checked ..
  · exact divided_checked ..
  · exact raised_checked ..
  · trivial
  · trivial
  · exact compared_checked ..
  · exact compared_checked ..
  · exact compared_checked ..
  · exact compared_checked ..
  · cases op <;> simp_all [Operator.isBinary]

theorem negated_checked (v : Value) : Checked IsPlain v.negated := by
  unfold negated
  split
  · exact checked_checked _
  · trivial
  · trivial

theorem slot_checked (index : Value) (length : Nat) :
    Checked (fun _ => True) (index.slot length) := by
  unfold slot
  split
  · trivial
  · split <;> trivial

end Value

/-! ### Built-ins -/

theorem TypeName.isWord_name (t : TypeName) : Text.isWord t.name = true := by cases t <;> decide

theorem MathFunction.isWord_name (f : MathFunction) : Text.isWord f.name = true := by
  cases f <;> decide

theorem BaseType.isPlain_default (t : BaseType) : t.default.IsPlain := by cases t <;> trivial

theorem Value.isPlain_convert? {h : Heap} {t : BaseType} {v w : Value}
    (hw : v.convert? h t = some w) : w.IsPlain := by
  cases t with
  | integer =>
    obtain ⟨n, -, rfl⟩ := Option.map_eq_some_iff.1 hw
    trivial
  | decimal =>
    obtain ⟨x, -, rfl⟩ := Option.map_eq_some_iff.1 hw
    trivial
  | text =>
    cases hw
    trivial
  | truth =>
    cases hw
    trivial

theorem TypeName.apply_checked (h : Heap) (t : TypeName) (args : List Value) :
    Checked Value.IsPlain (t.apply h args) := by
  unfold TypeName.apply
  split
  · exact BaseType.isPlain_default _
  · split
    · next hw => exact Value.isPlain_convert? hw
    · trivial
  · exact Error.isInternal_argumentCount t.isWord_name ..

theorem MathFunction.apply_checked (f : MathFunction) (args : List Value) :
    Checked Value.IsPlain (f.apply args) := by
  unfold MathFunction.apply
  split
  · exact (Argument.number_checked ..).bind fun _ _ => trivial
  · exact Argument.countFault_isInternal f.isWord_name ..

namespace Numbers

theorem abs_checked (args : List Value) : Checked Value.IsPlain (abs args) := by
  unfold abs
  split
  · next n =>
    generalize Integer.abs? n = k
    exact Value.checked_checked k
  · trivial
  · trivial
  · exact Argument.countFault_isInternal (by decide) ..

theorem sqr_checked (args : List Value) : Checked Value.IsPlain (sqr args) := by
  unfold sqr
  split
  · refine (Argument.number_checked ..).bind fun x _ => ?_
    split <;> trivial
  · exact Argument.countFault_isInternal (by decide) ..

theorem naturalLog_checked (x : Float) : Checked Value.IsPlain (naturalLog x) := by
  unfold naturalLog
  split <;> trivial

theorem logInBase_checked (x base : Float) : Checked Value.IsPlain (logInBase x base) := by
  unfold logInBase
  split
  · trivial
  · split <;> trivial

theorem log_checked (args : List Value) : Checked Value.IsPlain (log args) := by
  unfold log
  split
  · exact (Argument.number_checked ..).bind fun x _ => naturalLog_checked x
  · refine (Argument.number_checked ..).bind fun x _ => ?_
    exact (Argument.number_checked ..).bind fun base _ => logInBase_checked x base
  · exact Argument.countFault_isInternal (by decide) ..

theorem int_checked (args : List Value) : Checked Value.IsPlain (int args) := by
  unfold int
  split
  · trivial
  · split
    · split <;> trivial
    · trivial
  · exact Argument.countFault_isInternal (by decide) ..

theorem sleep_checked (args : List Value) : Checked Value.IsPlain (sleep args) := by
  unfold sleep
  split
  · refine (Argument.number_checked ..).bind fun x _ => ?_
    split <;> trivial
  · exact Argument.countFault_isInternal (by decide) ..

theorem random_upholds (args : List Value) : (random args).Upholds G G.value := by
  unfold random
  split
  · exact .andThen (.take fun m hm => ⟨hm.of_eq rfl rfl, trivial⟩) fun _ => .pure (G.plain trivial)
  · exact .failExternal (Argument.countFault_isInternal (by decide) ..)

end Numbers

theorem Run.settle_upholds (stack : CallStack) : (Run.settle stack).Upholds G fun _ => True :=
  .updateRest (fun m => m.sweep_scopes _) fun m => m.sweep_heap _

/-- A script may fail, but not for an internal reason. -/
theorem runScript_upholds {P : Flow → Prop} (h : P .done) (path : String) :
    (runScript path).Upholds G P := by
  unfold runScript
  have hkeeps (m : Machine) := m.runScript_keeps path
  refine .andThen (.take fun m hm => ⟨hm.of_eq (hkeeps m).1 (hkeeps m).2, trivial⟩) fun ended => ?_
  exact .andThen (.ofExcept (.mapError (fun _ => trivial) fun _ => rfl)) fun _ => .pure h

namespace Strings

theorem mid_checked (args : List Value) : Checked Value.IsPlain (mid args) := by
  unfold mid
  split
  · refine (Argument.text_checked ..).bind fun s _ => ?_
    refine (Argument.whole_checked ..).bind fun start _ => ?_
    exact (Argument.whole_checked ..).bind fun count _ => trivial
  · exact Argument.countFault_isInternal (by decide) ..

theorem left_checked (args : List Value) : Checked Value.IsPlain (left args) := by
  unfold left
  split
  · refine (Argument.text_checked ..).bind fun s _ => ?_
    exact (Argument.whole_checked ..).bind fun count _ => trivial
  · exact Argument.countFault_isInternal (by decide) ..

theorem right_checked (args : List Value) : Checked Value.IsPlain (right args) := by
  unfold right
  split
  · refine (Argument.text_checked ..).bind fun s _ => ?_
    exact (Argument.whole_checked ..).bind fun count _ => trivial
  · exact Argument.countFault_isInternal (by decide) ..

theorem asc_checked (args : List Value) : Checked Value.IsPlain (asc args) := by
  unfold asc
  split
  · refine (Argument.text_checked ..).bind fun s _ => ?_
    split <;> trivial
  · exact Argument.countFault_isInternal (by decide) ..

theorem chr_checked (args : List Value) : Checked Value.IsPlain (chr args) := by
  unfold chr
  split
  · refine (Argument.whole_checked ..).bind fun code _ => ?_
    dsimp only
    split <;> trivial
  · exact Argument.countFault_isInternal (by decide) ..

theorem length_checked (h : Heap) {name : String} (word : Text.isWord name = true)
    (args : List Value) : Checked Value.IsPlain (length h name args) := by
  unfold length
  split
  · trivial
  · trivial
  · trivial
  · exact Argument.countFault_isInternal word ..

theorem space_checked (args : List Value) : Checked Value.IsPlain (space args) := by
  unfold space
  split
  · refine (Argument.whole_checked ..).bind fun n _ => ?_
    dsimp only
    split <;> trivial
  · exact Argument.countFault_isInternal (by decide) ..

theorem mapped_checked {name : String} (word : Text.isWord name = true) (f : String → String)
    (args : List Value) : Checked Value.IsPlain (mapped name f args) := by
  unfold mapped
  split
  · exact (Argument.text_checked ..).bind fun s _ => trivial
  · exact Argument.countFault_isInternal word ..

end Strings

namespace Files

theorem argument_checked (name : String) (v : Value) :
    Checked (fun _ => True) (argument name v) := by
  unfold argument
  split <;> trivial

theorem openAs_checked (d : Disk) (path mode : String) :
    Checked (fun _ => True) (OpenFile.openAs d path mode) := by
  unfold OpenFile.openAs
  split
  · split <;> trivial
  · split
    · generalize OpenFile.openWriting d path = opened
      exact .mapError (fun _ => trivial) fun _ => rfl
    · split
      · generalize OpenFile.openAppending d path = opened
        exact .mapError (fun _ => trivial) fun _ => rfl
      · trivial

theorem write_checked (d : Disk) (f : OpenFile) (s : String) :
    Checked (fun _ => True) (f.write d s) := by
  unfold OpenFile.write
  split <;> trivial

theorem readLine_checked (d : Disk) (f : OpenFile) : Checked (fun _ => True) (f.readLine d).1 := by
  unfold OpenFile.readLine
  split
  · split
    · trivial
    · exact .mapError (fun _ => trivial) fun _ => rfl
  · trivial

theorem isPlain_lineValue (line : Option String) : (lineValue line).IsPlain := by
  cases line <;> trivial

theorem openPath_upholds (path mode : String) : (openPath path mode).Upholds G G.value := by
  unfold openPath
  refine .andThen .look fun d => ?_
  refine .andThen (.ofExcept (openAs_checked d path _)) fun p => ?_
  exact .andThen (.take fun m hm => ⟨hm.of_eq rfl rfl, trivial⟩) fun id => .pure (G.plain trivial)

theorem openFile_upholds (args : List Value) : (openFile args).Upholds G G.value := by
  unfold openFile
  split
  · refine .andThen (.ofExcept (Argument.text_checked ..)) fun path => ?_
    exact openPath_upholds path "r"
  · refine .andThen (.ofExcept (Argument.text_checked ..)) fun path => ?_
    refine .andThen (.ofExcept (Argument.text_checked ..)) fun mode => ?_
    exact openPath_upholds path mode
  · exact .failExternal (Argument.countFault_isInternal (by decide) ..)

theorem closeFile_upholds (args : List Value) : (closeFile args).Upholds G G.value := by
  unfold closeFile
  split
  · refine .andThen (.ofExcept (argument_checked ..)) fun id => ?_
    exact .andThen (.updateRest (fun _ => rfl) fun _ => rfl) fun _ => .pure (G.plain trivial)
  · exact .failExternal (Argument.countFault_isInternal (by decide) ..)

theorem writeText_upholds (id : FileId) (s : String) :
    (writeText id s).Upholds G fun _ => True := by
  unfold writeText
  refine .andThen .look fun f => ?_
  refine .andThen .look fun d => ?_
  refine .andThen (.ofExcept (write_checked d f s)) fun p => ?_
  exact .updateRest (fun _ => rfl) fun _ => rfl

theorem writeAll_upholds (id : FileId) (ending : String) (vs : List Value) :
    (writeAll id ending vs).Upholds G fun _ => True := by
  induction vs with
  | nil => exact .pure trivial
  | cons v vs ih =>
    unfold writeAll
    refine .andThen .look fun text => ?_
    exact .andThen (writeText_upholds id _) fun _ => ih

theorem write_upholds {name : String} (word : Text.isWord name = true) (ending : String)
    (args : List Value) : (write name ending args).Upholds G G.value := by
  unfold write
  split
  · exact .failExternal (Error.isInternal_argumentCount word ..)
  · refine .andThen (.ofExcept (argument_checked ..)) fun id => ?_
    exact .andThen (writeAll_upholds id ending _) fun _ => .pure (G.plain trivial)

theorem readLine_upholds (args : List Value) : (readLine args).Upholds G G.value := by
  unfold readLine
  split
  · refine .andThen (.ofExcept (argument_checked ..)) fun id => ?_
    refine .andThen .look fun f => ?_
    refine .andThen .look fun d => ?_
    refine .andThen (.updateRest (fun _ => rfl) fun _ => rfl) fun _ => ?_
    refine .andThen (.ofExcept (readLine_checked d f)) fun line => ?_
    exact .pure (G.plain (isPlain_lineValue line))
  · exact .failExternal (Argument.countFault_isInternal (by decide) ..)

end Files

namespace Sequences

theorem split?_upholds {e : End} {items rest : Array Value} {v : Value} (hi : G.sequence items)
    (h : split? e items = some (v, rest)) : G.value v ∧ G.sequence rest := by
  cases e with
  | front =>
    obtain ⟨w, hw, heq⟩ := Option.map_eq_some_iff.1 h
    cases heq
    refine ⟨hi _ (Array.mem_of_getElem? hw), fun x hx => ?_⟩
    obtain ⟨k, hk, rfl⟩ := Array.mem_extract_iff_getElem.1 hx
    exact hi _ (Array.getElem_mem _)
  | back =>
    obtain ⟨w, hw, heq⟩ := Option.map_eq_some_iff.1 h
    cases heq
    refine ⟨hi _ (Array.mem_of_back? hw), fun x hx => hi x ?_⟩
    rw [← Array.mem_toList_iff, Array.toList_pop] at hx
    exact Array.mem_toList_iff.1 ((List.dropLast_sublist _).subset hx)

theorem target_checked (name : String) (v : Value) : Checked (fun _ => True) (target name v) := by
  unfold target
  split <;> trivial

theorem arrayOf_checked (name : String) (v : Value) : Checked (fun _ => True) (arrayOf name v) := by
  unfold arrayOf
  split <;> trivial

theorem push_upholds {args : List Value} (h : ∀ v ∈ args, G.value v) :
    (push args).Upholds G G.value := by
  unfold push
  split
  · next c v =>
    have hv : G.value v := h v (by simp)
    refine .andThen (.ofExcept (target_checked ..)) fun p => ?_
    refine .andThen (.update fun m hm => ?_) fun _ => .pure hv
    exact hm.edit _ fun items hi => Guard.sequence_push hi hv
  · exact .failExternal (Argument.countFault_isInternal (by decide) ..)

theorem takeFrom_upholds (name : String) (c : Value) (id : SequenceId) (e : End) :
    (takeFrom name c id e).Upholds G G.value := by
  unfold takeFrom
  refine .bind (.sequence id) fun items hi => ?_
  split
  · next v rest h =>
    obtain ⟨hv, hrest⟩ := split?_upholds hi h
    refine .andThen (.update fun m hm => ?_) fun _ => .pure hv
    exact hm.edit _ fun _ _ => hrest
  · exact .failExternal rfl

theorem pop_upholds (args : List Value) : (pop args).Upholds G G.value := by
  unfold pop
  split
  · refine .andThen (.ofExcept (target_checked ..)) fun p => ?_
    exact takeFrom_upholds "POP" _ p.1 p.2
  · exact .failExternal (Argument.countFault_isInternal (by decide) ..)

theorem peek_upholds {name : String} (word : Text.isWord name = true) (e : End)
    (args : List Value) :
    (peek name e args).Upholds G G.value := by
  unfold peek
  split
  · refine .andThen (.ofExcept (arrayOf_checked ..)) fun id => ?_
    refine .bind (.sequence id) fun items hi => ?_
    split
    · next v rest h => exact .pure (split?_upholds hi h).1
    · exact .failExternal rfl
  · exact .failExternal (Argument.countFault_isInternal word ..)

theorem pushFront_upholds {args : List Value} (h : ∀ v ∈ args, G.value v) :
    (pushFront args).Upholds G G.value := by
  unfold pushFront
  split
  · next c v =>
    have hv : G.value v := h v (by simp)
    refine .andThen (.ofExcept (arrayOf_checked ..)) fun id => ?_
    refine .andThen (.update fun m hm => ?_) fun _ => .pure hv
    refine hm.edit _ fun items hi w hw => ?_
    rcases Array.mem_append.1 hw with hw | hw
    · rw [Array.mem_singleton.1 hw]
      exact hv
    · exact hi w hw
  · exact .failExternal (Argument.countFault_isInternal (by decide) ..)

theorem popFront_upholds (args : List Value) : (popFront args).Upholds G G.value := by
  unfold popFront
  split
  · refine .andThen (.ofExcept (arrayOf_checked ..)) fun id => ?_
    exact takeFrom_upholds "POPFRONT" _ id .front
  · exact .failExternal (Argument.countFault_isInternal (by decide) ..)

theorem newQueue_upholds (args : List Value) : (newQueue args).Upholds G G.value := by
  unfold newQueue
  split
  · exact .andThen (.allocate (by simp [Guard.sequence])) fun _ => .pure (G.plain trivial)
  · exact .failExternal (Argument.countFault_isInternal (by decide) ..)

theorem newStack_upholds (args : List Value) : (newStack args).Upholds G G.value := by
  unfold newStack
  split
  · exact .andThen (.allocate (by simp [Guard.sequence])) fun _ => .pure (G.plain trivial)
  · exact .failExternal (Argument.countFault_isInternal (by decide) ..)

end Sequences

/-- The built-ins that work on values. -/
theorem Builtin.onValues?_upholds {b : Builtin} {args : List Value} {r : Run Value}
    (h : ∀ v ∈ args, G.value v) (hr : b.onValues? args = some r) : r.Upholds G G.value := by
  cases b <;> cases hr
  case conversion t => exact .onHeap fun heap => t.apply_checked heap args
  case openFile => exact Files.openFile_upholds args
  case closeFile => exact Files.closeFile_upholds args
  case filePrint => exact Files.write_upholds (by decide) _ args
  case fileWrite => exact Files.write_upholds (by decide) _ args
  case fileInput => exact Files.readLine_upholds args
  case math f => exact .ofPlain (f.apply_checked args)
  case abs => exact .ofPlain (Numbers.abs_checked args)
  case sqr => exact .ofPlain (Numbers.sqr_checked args)
  case log => exact .ofPlain (Numbers.log_checked args)
  case int => exact .ofPlain (Numbers.int_checked args)
  case rnd => exact Numbers.random_upholds args
  case asc => exact .ofPlain (Strings.asc_checked args)
  case chr => exact .ofPlain (Strings.chr_checked args)
  case lenText => exact .onHeap fun heap => Strings.length_checked heap (by decide) args
  case len => exact .onHeap fun heap => Strings.length_checked heap (by decide) args
  case space => exact .ofPlain (Strings.space_checked args)
  case mid => exact .ofPlain (Strings.mid_checked args)
  case left => exact .ofPlain (Strings.left_checked args)
  case right => exact .ofPlain (Strings.right_checked args)
  case lowerCase => exact .ofPlain (Strings.mapped_checked (by decide) ..)
  case upperCase => exact .ofPlain (Strings.mapped_checked (by decide) ..)
  case trim => exact .ofPlain (Strings.mapped_checked (by decide) ..)
  case sleep => exact .ofPlain (Numbers.sleep_checked args)
  case queue => exact Sequences.newQueue_upholds args
  case stack => exact Sequences.newStack_upholds args
  case push => exact Sequences.push_upholds h
  case pop => exact Sequences.pop_upholds args
  case front => exact Sequences.peek_upholds (by decide) _ args
  case back => exact Sequences.peek_upholds (by decide) _ args
  case pushFront => exact Sequences.pushFront_upholds h
  case popFront => exact Sequences.popFront_upholds args

/-- Any built-in on values; one that does not work on them says so. -/
theorem Builtin.onValues_upholds (b : Builtin) {args : List Value} (h : ∀ v ∈ args, G.value v) :
    (b.onValues args).Upholds G G.value := by
  unfold onValues
  cases hr : b.onValues? args with
  | none => exact .failExternal rfl
  | some r => exact b.onValues?_upholds h hr

theorem Builtin.apply_safe (b : Builtin) {stack : CallStack} {args : List Value}
    (h : ∀ v ∈ args, v.Sound) : (b.apply stack args).Safe Value.Sound := by
  rw [← Run.upholds_sound]
  unfold apply
  split
  · exact .andThen (Run.settle_upholds _) fun _ => b.onValues_upholds h
  · exact b.onValues_upholds h

end LineBasic

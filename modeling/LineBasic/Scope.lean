import LineBasic.Text.Letter
import LineBasic.Value

/-!
# Scopes

Names are bound in scopes, in upper case, so that ASCII case does not count. A name is looked up
along a chain of scopes, from the innermost to the global one.

* `Bindings` : the names of one scope; `Bindings.find?`, `Bindings.insert`.
* `Scopes` : all scopes, by identity.
* `Scopes.find?`, `Scopes.define`, `Scopes.owner?` : look-up, binding, and the
  scope that binds a name.
* `Scopes.assign` : plain assignment, which reaches the innermost and the global scope only.
* `Scopes.assignShared` : assignment in the scope that owns the name.
-/

namespace LineBasic

/-- The names bound in one scope. -/
structure Bindings where
  entries : List (String × Value)

namespace Bindings

/-- No names. -/
def empty : Bindings := ⟨[]⟩

/-- The value of a name. -/
def find? (b : Bindings) (name : String) : Option Value := b.entries.lookup name

/-- Whether a name is bound. -/
def binds (b : Bindings) (name : String) : Bool := (b.find? name).isSome

/-- The entries with a value put in the place of the name's first entry. -/
def replace (name : String) (v : Value) : List (String × Value) → List (String × Value)
  | [] => []
  | e :: es => if e.1 = name then (name, v) :: es else e :: replace name v es

/-- Binds a name, in its place if it has one. -/
def insert (b : Bindings) (name : String) (v : Value) : Bindings :=
  if b.binds name then ⟨replace name v b.entries⟩ else ⟨(name, v) :: b.entries⟩

theorem lookup_replace_self {name : String} {v : Value} {es : List (String × Value)}
    (h : (es.lookup name).isSome) : (replace name v es).lookup name = some v := by
  induction es with
  | nil => simp at h
  | cons e es ih =>
    obtain ⟨k, w⟩ := e
    by_cases he : k = name
    · simp [replace, he]
    · have hb : (name == k) = false := by simp [Ne.symm he]
      simp only [List.lookup_cons, hb] at h
      simp [replace, he, List.lookup_cons, hb, ih h]

theorem lookup_replace_of_ne {name other : String} {v : Value} {es : List (String × Value)}
    (h : other ≠ name) : (replace name v es).lookup other = es.lookup other := by
  have hn : (other == name) = false := by simp [h]
  induction es with
  | nil => rfl
  | cons e es ih =>
    obtain ⟨k, w⟩ := e
    by_cases he : k = name
    · simp [replace, he, List.lookup_cons, hn]
    · simp only [replace, he, if_false, List.lookup_cons, ih]

theorem find?_insert_self (b : Bindings) (name : String) (v : Value) :
    (b.insert name v).find? name = some v := by
  unfold insert
  split
  · next h => exact lookup_replace_self h
  · simp [find?]

theorem find?_insert_of_ne (b : Bindings) {name other : String} (v : Value) (h : other ≠ name) :
    (b.insert name v).find? other = b.find? other := by
  have hn : (other == name) = false := by simp [h]
  unfold insert
  split
  · exact lookup_replace_of_ne h
  · simp [find?, List.lookup_cons, hn]

end Bindings

/-- All scopes, by identity. -/
abbrev Scopes := Array Bindings

namespace Scopes

/-- The global scope. -/
def global : ScopeId := 0

/-- The value of an upper-case name in one scope. -/
def local? (s : Scopes) (id : ScopeId) (key : String) : Option Value :=
  (s[id]?).bind fun b => b.find? key

/-- Whether one scope binds an upper-case name. -/
def binds (s : Scopes) (id : ScopeId) (key : String) : Bool := (s.local? id key).isSome

/-- The value of a name along a chain. -/
def find? (s : Scopes) (chain : Chain) (name : String) : Option Value :=
  chain.findSome? fun id => s.local? id (Text.upperCase name)

/-- Binds a name in one scope. -/
def define (s : Scopes) (id : ScopeId) (name : String) (v : Value) : Scopes :=
  s.modify id fun b => b.insert (Text.upperCase name) v

/-- The innermost scope of a chain that binds a name. -/
def owner? (s : Scopes) (chain : Chain) (name : String) : Option ScopeId :=
  chain.find? fun id => s.binds id (Text.upperCase name)

/-- The innermost scope of a chain. -/
def innermost (chain : Chain) : ScopeId := chain.headD global

/-- The outermost scope of a chain. -/
def outermost (chain : Chain) : ScopeId := chain.getLastD global

/-- Plain assignment: in the innermost scope, unless the name is bound in the
outermost scope only. -/
def assign (s : Scopes) (chain : Chain) (name : String) (v : Value) : Scopes :=
  if !s.binds (innermost chain) (Text.upperCase name) &&
      s.binds (outermost chain) (Text.upperCase name) then
    s.define (outermost chain) name v
  else
    s.define (innermost chain) name v

/-- Assignment in the scope that owns the name, or in the innermost one. -/
def assignShared (s : Scopes) (chain : Chain) (name : String) (v : Value) : Scopes :=
  s.define ((s.owner? chain name).getD (innermost chain)) name v

end Scopes
end LineBasic

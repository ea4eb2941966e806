import LineBasic.Machine

/-!
# Values from and for the outside

* `Datum` : data that a host program hands to a machine; `Machine.load` makes values of them.
* `Report` : what a host program sees of a value.
-/

namespace LineBasic

/-- Data without references. -/
inductive Datum where
  | nothing
  | bool (b : Bool)
  | int (n : Int64)
  | float (x : Float)
  | text (s : String)
  | list (items : List Datum)
  deriving Inhabited

namespace Machine

mutual

/-- The value of a datum; every list becomes a new array. -/
def load (m : Machine) : Datum → Value × Machine
  | .nothing => (.nothing, m)
  | .bool b => (.bool b, m)
  | .int n => (.int n, m)
  | .float x => (.float x, m)
  | .text s => (.text s, m)
  | .list items =>
    let (vs, m) := m.loadAll items
    let (id, m) := m.allocate vs.toArray
    (.array id, m)

/-- The values of data. -/
def loadAll (m : Machine) : List Datum → List Value × Machine
  | [] => ([], m)
  | d :: ds =>
    let (v, m) := m.load d
    let (vs, m) := m.loadAll ds
    (v :: vs, m)

end

end Machine

/-- What can be seen of a value. -/
structure Report where
  kind : ValueKind
  text : String
  isTrue : Bool

/-- What can be seen of a value at present. -/
def Value.report (h : Heap) (v : Value) : Report := ⟨v.kind, v.display h, v.isTrue h⟩

end LineBasic

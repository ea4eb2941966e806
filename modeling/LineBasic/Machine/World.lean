import LineBasic.Machine.Disk
import LineBasic.Value

/-!
# The world

A run asks for things that no program decides: random numbers, what a script does, and in which
order files are written out that are dropped together. Each question has a number, so that a world
may answer the same question in different ways.

* `World` : the answers to all questions.
* `World.still` : a world in which nothing happens.
-/

namespace LineBasic

/-- What a script leaves behind: the files, what it did not read from the console, and its text. -/
structure ScriptEnd where
  disk : Disk
  unread : Octets
  printed : String

/-- What decides the answers to the questions of a run. -/
structure World where
  /-- The random number that answers a question. -/
  draw : Nat → Float
  /-- What becomes of running the script of a path, given the files and what the console still has.
  The shell may not start. -/
  script : Nat → String → Disk → Octets → Except DiskFault ScriptEnd
  /-- The order in which dropped files are written out. -/
  order : Nat → List FileId → List FileId
  order_perm : ∀ n ids, (order n ids).Perm ids

/-- Every draw is a half, scripts do nothing, and the file that was opened first
is written out first. -/
def World.still : World where
  draw _ := 0.5
  script _ _ disk unread := .ok ⟨disk, unread, ""⟩
  order _ ids := ids
  order_perm _ _ := .refl _

end LineBasic

import LineBasic.Proofs.TakenLines

/-!
# Files of lines

Values are written to a file one on a line, through a buffer, the file is closed, and its lines are
read again. Between the calls that do so a program may do whatever leaves the file alone. There is
one thing that it can do to the file from afar: if another writer of the same file is let go of
before it was closed, its text is written out over the contents.

* `Disk.Stores` : the place of a path and the contents there, as they are after other
  files have been written.
* `Machine.sweep_stores`, `Machine.sweep_file` : what dropped files leave alone.
* `OpenFile.Holds`, `Files.Writes` : a file that is written to holds what was written,
  some of it in its buffer.
* `Files.Apart`, `Files.Spared` : steps between the calls, and calls that
  find no such writer dropped.
* `Files.Writing` : the machines on the way of writing.
* `Files.ReadsBack` : a path gives certain lines, whenever it is opened again.
* `lines_come_back` : values that are written come back as lines, and so do the lines of every text.
-/

namespace LineBasic

/-! ### Files that are put on a disk -/

namespace Disk

variable {d : Disk} {path : String} {l l' : Location} {bytes : Octets}

theorem lookup_putIn_other (h : l' ≠ l) (bytes : Octets) (fs : List (Location × Octets)) :
    (putIn l' bytes fs).lookup l = fs.lookup l := by
  have hother : (l == l') = false := by simp [Ne.symm h]
  induction fs with
  | nil => simp [putIn, List.lookup_cons, hother]
  | cons f fs ih =>
    obtain ⟨k, b⟩ := f
    by_cases hk : k = l'
    · subst hk
      simp [putIn, List.lookup_cons, hother]
    · simp [putIn, hk, List.lookup_cons, ih]

/-- No place of a file is lost. -/
theorem any_putIn {p : Location → Bool} {fs : List (Location × Octets)}
    (h : (fs.any fun f => p f.1) = true) (l : Location) (bytes : Octets) :
    ((putIn l bytes fs).any fun f => p f.1) = true := by
  induction fs with
  | nil => simp at h
  | cons f fs ih =>
    rw [List.any_cons, Bool.or_eq_true] at h
    by_cases hf : f.1 = l
    · simpa [putIn, hf] using h
    · rw [putIn, if_neg hf, List.any_cons, Bool.or_eq_true]
      exact h.imp_right ih

theorem isFolder_put (h : d.isFolder l' = true) (l : Location) (bytes : Octets) :
    (d.put l bytes).isFolder l' = true := by
  simp only [isFolder, Bool.or_eq_true] at h ⊢
  exact h.imp_right fun hfiles => any_putIn (p := fun k => l'.isPrefixOf k && l' ≠ k) hfiles l bytes

theorem enter_eq_ok : d.enter l = .ok () ↔ d.isFolder l = true := by
  unfold enter
  split
  · next h => simp [h]
  · next h => split <;> simp [h]

/-- A path leads where it led before. -/
theorem walk_put {cs : List String} {here : Location} (h : d.walk here cs = .ok l') (l : Location)
    (bytes : Octets) :
    (d.put l bytes).walk here cs = .ok l' := by
  induction cs generalizing here with
  | nil => exact h
  | cons c cs ih =>
    rw [walk] at h ⊢
    cases henter : d.enter here with
    | error f => simp [henter] at h
    | ok u =>
      have hfolder := isFolder_put (enter_eq_ok.1 henter) l bytes
      simp only [henter] at h
      simp only [enter_eq_ok.2 hfolder]
      split at h
      · next hc => rw [if_pos hc]; exact ih h
      next hc =>
      rw [if_neg hc]
      split at h
      · next hup => rw [if_pos hup]; exact ih h
      · next hup =>
        rw [if_neg hup]
        split at h
        · cases h
        · next hlong => rw [if_neg hlong]; exact ih h

theorem locate_put (h : d.locate path = .ok l') (l : Location) (bytes : Octets) :
    (d.put l bytes).locate path = .ok l' := by
  unfold locate at h ⊢
  split at h
  · cases h
  next hnul =>
  split at h
  · cases h
  next hroot =>
  split at h
  · cases h
  next hlong =>
  rw [if_neg hnul, if_neg hroot, if_neg hlong]
  exact walk_put h l bytes

/-- A path that a file can be written to leads to that file. -/
theorem locate_of_forWriting (h : d.locateForWriting path = .ok l) : d.locate path = .ok l := by
  unfold locateForWriting at h
  cases hlocate : d.locate (withoutSlashes path) with
  | error f => simp [hlocate] at h
  | ok k =>
    simp only [hlocate] at h
    split at h
    · cases h
    · next hplain =>
      have hpath : withoutSlashes path = path := by
        simp only [Bool.or_eq_true, not_or, decide_eq_true_eq, not_not] at hplain
        exact hplain.2
      rw [hpath] at hlocate
      cases henter : d.enter k.dropLast with
      | error f => simp [henter] at h
      | ok u =>
        rw [henter] at h
        cases h
        exact hlocate

/-- A path leads to a place, and a file is there. -/
structure Stores (d : Disk) (path : String) (l : Location) (bytes : Octets) : Prop where
  place : d.locate path = .ok l
  contents : d.file? l = some bytes

theorem read_eq_ok : d.read path = .ok bytes ↔ ∃ l, d.Stores path l bytes := by
  have hread : d.read path = .ok bytes ↔ ∃ l, d.locate path = .ok l ∧ d.file? l = some bytes := by
    unfold read
    cases d.locate path with
    | error f => simp
    | ok l =>
      cases hfile : d.file? l with
      | none => by_cases hfolder : d.isFolder l = true <;> simp [hfile, hfolder]
      | some contents => simp [hfile]
  rw [hread]
  exact exists_congr fun l => ⟨fun h => ⟨h.1, h.2⟩, fun h => ⟨h.place, h.contents⟩⟩

theorem stores_put (h : d.locate path = .ok l) (bytes : Octets) :
    (d.put l bytes).Stores path l bytes :=
  ⟨locate_put h l bytes, file?_put_self d l bytes⟩

theorem Stores.put_other (h : d.Stores path l bytes) (hne : l' ≠ l) (bytes' : Octets) :
    (d.put l' bytes').Stores path l bytes :=
  ⟨locate_put h.place l' bytes', (lookup_putIn_other hne bytes' d.files).trans h.contents⟩

/-- A path leads to the same place, and the same is there. -/
structure Agrees (path : String) (d d' : Disk) : Prop where
  place : d'.locate path = d.locate path
  contents : d'.read path = d.read path

theorem Agrees.stores {d' : Disk} (h : d.Agrees path d') (hd : d.Stores path l bytes) :
    d'.Stores path l bytes := by
  have hread : d'.read path = .ok bytes := h.contents.trans (read_eq_ok.2 ⟨l, hd⟩)
  obtain ⟨k, hk⟩ := read_eq_ok.1 hread
  have hplace : k = l := Except.ok.inj (hk.place.symm.trans (h.place.trans hd.place))
  exact hplace ▸ hk

theorem Stores.agrees {d' : Disk} (hd' : d'.Stores path l bytes) (hd : d.Stores path l bytes) :
    d.Agrees path d' :=
  ⟨hd'.place.trans hd.place.symm,
    (read_eq_ok.2 ⟨l, hd'⟩).trans (read_eq_ok.2 ⟨l, hd⟩).symm⟩

end Disk

/-! ### What dropped files leave alone -/

namespace OpenFile

theorem flush_stores_other {d : Disk} {path : String} {l l' : Location} {bytes : Octets}
    (h : d.Stores path l bytes) (hne : l' ≠ l) (mode : WriteMode) (buffer : Octets) :
    (flush d l' mode buffer).1.Stores path l bytes := by
  unfold flush
  split
  · exact h
  · cases mode with
    | «at» position => exact h.put_other hne _
    | append => exact h.put_other hne _

theorem close_stores_other {d : Disk} {path : String} {l : Location} {bytes : Octets} {f : OpenFile}
    (h : d.Stores path l bytes) (hne : f.location ≠ l) : (f.close d).1.Stores path l bytes := by
  unfold close
  split
  · exact flush_stores_other h hne _ _
  · exact h

theorem close_location (d : Disk) (f : OpenFile) : (f.close d).2.location = f.location := by
  unfold close
  split <;> rfl

end OpenFile

namespace Machine

variable {m : Machine} {path : String} {l : Location} {bytes : Octets} {id other : FileId}
  {roots : List Referent}

theorem file_eq (m : Machine) (id : FileId) : m.file id = (m.files[id]?).getD ⟨"", [], .closed⟩ :=
  Array.getD_eq_getD_getElem? ..

theorem closeFile_other (h : other ≠ id) : (m.closeFile id).files[other]? = m.files[other]? :=
  Array.getElem?_setIfInBounds_ne h.symm

theorem closeFile_location (m : Machine) (id other : FileId) :
    ((m.closeFile id).file other).location = (m.file other).location := by
  by_cases h : other = id
  · subst h
    by_cases hin : other < m.files.size
    · have hself : (m.closeFile other).files[other]? = some ((m.file other).close m.disk).2 :=
        Array.getElem?_setIfInBounds_self_of_lt hin
      rw [file_eq, hself, Option.getD_some, OpenFile.close_location]
    · have hnone : m.files[other]? = none := Array.getElem?_eq_none (Nat.not_lt.1 hin)
      have hself : (m.closeFile other).files[other]? = none :=
        Array.getElem?_eq_none ((Array.size_setIfInBounds ..).trans_le (Nat.not_lt.1 hin))
      rw [file_eq, file_eq, hself, hnone]
  · rw [file_eq, closeFile_other h, ← file_eq]

theorem foldl_closeFile_other {ids : List FileId} (h : other ∉ ids) :
    (ids.foldl closeFile m).files[other]? = m.files[other]? := by
  induction ids generalizing m with
  | nil => rfl
  | cons id ids ih =>
    obtain ⟨hne, hrest⟩ := not_or.1 (mt List.mem_cons.2 h)
    rw [List.foldl_cons, ih hrest, closeFile_other hne]

theorem foldl_closeFile_stores {ids : List FileId} (h : m.disk.Stores path l bytes)
    (apart : ∀ id ∈ ids, (m.file id).location ≠ l) :
    (ids.foldl closeFile m).disk.Stores path l bytes := by
  induction ids generalizing m with
  | nil => exact h
  | cons id ids ih =>
    refine ih (OpenFile.close_stores_other h (apart id (.head _))) fun k hk => ?_
    rw [closeFile_location]
    exact apart k (.tail _ hk)

/-- The contents of a path stay as they are if nothing that is dropped goes there. -/
theorem sweep_stores (h : m.disk.Stores path l bytes)
    (apart : ∀ id ∈ m.dropped roots, (m.file id).location ≠ l) :
    (m.sweep roots).disk.Stores path l bytes := by
  unfold sweep
  split
  · exact h
  · exact foldl_closeFile_stores h fun id hid => apart id ((m.world.order_perm _ _).mem_iff.1 hid)

/-- A file that is not dropped stays as it is. -/
theorem sweep_file (h : id ∉ m.dropped roots) : (m.sweep roots).files[id]? = m.files[id]? := by
  unfold sweep
  split
  · rfl
  · exact foldl_closeFile_other fun hid => h ((m.world.order_perm _ _).mem_iff.1 hid)

/-- What a root refers to is not dropped. -/
theorem not_mem_dropped_of_root (h : .file id ∈ roots) : id ∉ m.dropped roots := by
  have hkeeps : m.keeps roots (.file id) = true := by
    rw [keeps, keepsWithin, List.contains_iff_mem.2 h, Bool.true_or]
  simp [dropped, hkeeps]

end Machine

/-! ### Writing through a buffer -/

namespace OpenFile

/-- A file that was opened for writing at a path, and what was written to it since. On the disk is
what does not wait in the buffer. -/
def Holds (f : OpenFile) (path : String) (d : Disk) (bytes : Octets) : Prop :=
  ∃ written buffer, d.Stores path f.location written ∧
    f.state = .writing (.at written.length) buffer ∧
    written ++ buffer = bytes

variable {d : Disk} {path : String} {l : Location} {f : OpenFile} {bytes written : Octets}

theorem emit_stores (h : d.Stores path l written) (bytes : Octets) : ∃ d',
    emit d l (.at written.length) bytes = (d', .at (written ++ bytes).length) ∧
      d'.Stores path l (written ++ bytes) := by
  have hafter : written.drop (written.length + bytes.length) = [] :=
    List.drop_eq_nil_of_le (Nat.le_add_right _ _)
  refine ⟨d.put l (written ++ bytes), ?_, Disk.stores_put h.place _⟩
  simp [emit, overwrite, h.contents, hafter]

theorem flush_stores (h : d.Stores path l written) (bytes : Octets) : ∃ d',
    flush d l (.at written.length) bytes = (d', .at (written ++ bytes).length) ∧
      d'.Stores path l (written ++ bytes) := by
  unfold flush
  split
  · next hempty =>
    rw [List.isEmpty_iff.1 hempty, List.append_nil]
    exact ⟨d, rfl, h⟩
  · exact emit_stores h bytes

/-- However the octets fit in the buffer, they come after those that were written before. -/
theorem writeBuffered_stores (h : d.Stores path l written) (buffer bytes : Octets) :
    ∃ d' written' buffer', writeBuffered d l (.at written.length) buffer bytes =
      (d', .writing (.at written'.length) buffer') ∧
      d'.Stores path l written' ∧ written' ++ buffer' = written ++ buffer ++ bytes := by
  unfold writeBuffered
  by_cases hroom : bytes.length < blockSize - buffer.length
  · exact ⟨d, written, buffer ++ bytes, by rw [if_pos hroom], h, by rw [List.append_assoc]⟩
  rw [if_neg hroom]
  by_cases hover : blockSize - buffer.length < bytes.length
  · obtain ⟨d', hflush, hd'⟩ := flush_stores h buffer
    simp only [if_pos hover, hflush]
    by_cases hblock : blockSize ≤ bytes.length
    · obtain ⟨d'', hemit, hd''⟩ := emit_stores hd' bytes
      exact ⟨d'', written ++ buffer ++ bytes, [], by rw [if_pos hblock, hemit], hd'',
        List.append_nil _⟩
    · exact ⟨d', written ++ buffer, bytes, by rw [if_neg hblock, List.nil_append], hd', rfl⟩
  · simp only [if_neg hover]
    by_cases hblock : blockSize ≤ bytes.length
    · -- A whole block just fits in the buffer only if the buffer is empty.
      have hbuffer : buffer = [] := by
        have hpos : 0 < blockSize := by decide
        exact List.length_eq_zero_iff.1 (by omega)
      obtain ⟨d', hemit, hd'⟩ := emit_stores h bytes
      exact ⟨d', written ++ bytes, [], by rw [if_pos hblock, hemit, hbuffer],
        hd', by simp [hbuffer]⟩
    · exact ⟨d, written, buffer ++ bytes, by rw [if_neg hblock], h, by rw [List.append_assoc]⟩

theorem Holds.write (h : f.Holds path d bytes) (s : String) :
    ∃ d' f', f.write d s = .ok (d', f') ∧ f'.Holds path d' (bytes ++ Text.encode s) := by
  obtain ⟨written, buffer, hd, hstate, rfl⟩ := h
  obtain ⟨d', written', buffer', hwrite, hd', hbytes⟩ :=
    writeBuffered_stores hd buffer (Text.encode s)
  refine ⟨d', { f with state := .writing (.at written'.length) buffer' }, ?_, written', buffer',
    hd', rfl, hbytes⟩
  simp only [OpenFile.write, hstate, hwrite]

/-- When it is closed, all that was written is on the disk. -/
theorem Holds.close (h : f.Holds path d bytes) : (f.close d).1.Stores path f.location bytes := by
  obtain ⟨written, buffer, hd, hstate, rfl⟩ := h
  obtain ⟨d', hflush, hd'⟩ := flush_stores hd buffer
  have hclose : (f.close d).1 = (flush d f.location (.at written.length) buffer).1 := by
    rw [OpenFile.close, hstate]
  rwa [hclose, hflush]

end OpenFile

/-! ### Functions of files -/

namespace Files

/-- A step that leaves the contents of a path as they are, and a file that is in use there. -/
structure Apart (path : String) (file : Value) (m m' : Machine) : Prop where
  disk : m.disk.Agrees path m'.disk
  file : ∀ id, file = .file id → m'.files[id]? = m.files[id]?

/-- What is found dropped when a call is made does not go to the place of a path. -/
def Spared (path : String) (stack : CallStack) (args : List Value) (m : Machine) : Prop :=
  ∀ id ∈ m.dropped (stack.hold args).roots, m.disk.locate path ≠ .ok (m.file id).location

instance (path : String) (stack : CallStack) (args : List Value) (m : Machine) :
    Decidable (Spared path stack args m) := inferInstanceAs (Decidable (∀ id ∈ _, _ ≠ _))

/-- A file that is written to, and what was written. -/
def Writes (path : String) (id : FileId) (m : Machine) (bytes : Octets) : Prop :=
  ∃ f, m.files[id]? = some f ∧ f.Holds path m.disk bytes

/-- What a file that is open for reading still has. -/
def Pending (path : String) (id : FileId) (m : Machine) (bytes : Octets) : Prop :=
  ∃ f position buffer contents, m.files[id]? = some f ∧ f.state = .reading position buffer ∧
    m.disk.Stores path f.location contents ∧ bytes = buffer ++ contents.drop position

variable {path : String} {id : FileId} {stack : CallStack} {args : List Value} {m m' : Machine}
  {l : Location} {bytes : Octets}

theorem Spared.stores (h : Spared path stack args m) (hm : m.disk.Stores path l bytes) :
    (m.sweep (stack.hold args).roots).disk.Stores path l bytes :=
  Machine.sweep_stores hm fun id hid heq => h id hid (heq ▸ hm.place)

/-- The files among the arguments of a call are kept. -/
theorem sweep_argument (h : .file id ∈ args) :
    (m.sweep (stack.hold args).roots).files[id]? = m.files[id]? := by
  refine Machine.sweep_file (Machine.not_mem_dropped_of_root ?_)
  have hroot : Referent.file id ∈ (stack.hold args).held.flatMap Value.referents :=
    List.mem_flatMap.2 ⟨.file id, List.mem_append_left _ h, .head _⟩
  exact List.mem_append_right _ hroot

theorem Writes.apart (h : Writes path id m bytes) (step : Apart path (.file id) m m') :
    Writes path id m' bytes := by
  obtain ⟨f, hf, written, buffer, hd, hstate, hbytes⟩ := h
  exact ⟨f, (step.file id rfl).trans hf, written, buffer, step.disk.stores hd, hstate, hbytes⟩

theorem Pending.apart (h : Pending path id m bytes) (step : Apart path (.file id) m m') :
    Pending path id m' bytes := by
  obtain ⟨f, position, buffer, contents, hf, hstate, hd, hbytes⟩ := h
  exact ⟨f, position, buffer, contents, (step.file id rfl).trans hf, hstate,
    step.disk.stores hd, hbytes⟩

/-- When a call is made on a file, writing out what was dropped is such a step. -/
theorem Spared.apart (spared : Spared path stack args m) (hm : m.disk.Stores path l bytes)
    (used : .file id ∈ args) : Apart path (.file id) m (m.sweep (stack.hold args).roots) where
  disk := (spared.stores hm).agrees hm
  file := by
    rintro _ ⟨⟩
    exact sweep_argument used

theorem Writes.sweep (h : Writes path id m bytes) (spared : Spared path stack args m)
    (used : .file id ∈ args) : Writes path id (m.sweep (stack.hold args).roots) bytes := by
  obtain ⟨f, hf, written, buffer, hd, hrest⟩ := h
  exact Writes.apart ⟨f, hf, written, buffer, hd, hrest⟩ (spared.apart hd used)

theorem Pending.sweep (h : Pending path id m bytes) (spared : Spared path stack args m)
    (used : .file id ∈ args) : Pending path id (m.sweep (stack.hold args).roots) bytes := by
  obtain ⟨f, position, buffer, contents, hf, hstate, hd, hbytes⟩ := h
  exact Pending.apart ⟨f, position, buffer, contents, hf, hstate, hd, hbytes⟩
    (spared.apart hd used)

theorem file_of_getElem? {f : OpenFile} (h : m.files[id]? = some f) : m.file id = f := by
  rw [Machine.file_eq, h, Option.getD_some]

theorem lt_size_of_getElem? {f : OpenFile} (h : m.files[id]? = some f) : id < m.files.size := by
  by_contra hid
  rw [Array.getElem?_eq_none (Nat.not_lt.1 hid)] at h
  cases h

theorem Writes.writeText (h : Writes path id m bytes) (s : String) : ∃ m',
    writeText id s m = .value () m' ∧ Writes path id m' (bytes ++ Text.encode s) ∧
    m'.heap = m.heap := by
  obtain ⟨f, hf, hholds⟩ := h
  obtain ⟨d', f', hwrite, hholds'⟩ := hholds.write s
  refine ⟨{ m.setFile id f' with disk := d' }, ?_,
    ⟨f', Array.getElem?_setIfInBounds_self_of_lt (lt_size_of_getElem? hf), hholds'⟩, rfl⟩
  simp only [Files.writeText, find, file_of_getElem? hf, Run.bind_apply, Run.read, hwrite,
    Run.ofExcept, Run.pure, Run.update]

theorem Writes.writeAll (h : Writes path id m bytes) (ending : String) (vs : List Value) : ∃ m',
    writeAll id ending vs m = .value () m' ∧
      Writes path id m'
        (bytes ++ vs.flatMap fun v => Text.encode (v.display m.heap ++ ending)) := by
  induction vs generalizing m bytes with
  | nil => exact ⟨m, rfl, by simpa using h⟩
  | cons v vs ih =>
    obtain ⟨m₁, hwrite, hwrites, hheap⟩ := h.writeText (v.display m.heap ++ ending)
    obtain ⟨m₂, hrest, hwrites'⟩ := ih hwrites
    refine ⟨m₂, ?_, by simpa [hheap] using hwrites'⟩
    simp only [Files.writeAll, Run.bind_apply, Run.read, hwrite, hrest]

/-- Values are written one on a line. -/
theorem Writes.print (h : Writes path id m bytes) {vs : List Value}
    (spared : Spared path stack (.file id :: vs) m) :
    ∃ m', Builtin.filePrint.apply stack (.file id :: vs) m = .value .nothing m' ∧
      Writes path id m' (bytes ++ vs.flatMap fun v => Text.encode (v.display m.heap ++ "\n")) := by
  obtain ⟨m', hwrite, hwrites⟩ := (h.sweep spared (.head _)).writeAll "\n" vs
  rw [Machine.sweep_heap] at hwrites
  refine ⟨m', ?_, hwrites⟩
  show write "FPRINT" "\n" (.file id :: vs) (m.sweep _) = _
  simp only [write, argument, Run.ofExcept, Run.bind_apply, Run.pure, hwrite, Run.pure_apply]

/-- When the file is closed, its path leads to what was written. -/
theorem Writes.close (h : Writes path id m bytes) (spared : Spared path stack [.file id] m) : ∃ m',
    Builtin.closeFile.apply stack [.file id] m = .value .nothing m' ∧
    m'.disk.read path = .ok bytes := by
  obtain ⟨f, hf, hholds⟩ := h.sweep spared (.head _)
  refine ⟨(m.sweep (stack.hold [.file id]).roots).closeFile id, rfl,
    Disk.read_eq_ok.2 ⟨f.location, ?_⟩⟩
  have hclose := hholds.close
  rwa [← file_of_getElem? hf] at hclose ⊢

/-- Opening for writing empties the file. -/
theorem writes_of_open {mode : String} {file : Value} (hmode : Text.lowerCase mode = "w")
    (h : Builtin.openFile.apply stack [.text path, .text mode] m = .value file m') :
    ∃ id, file = .file id ∧ Writes path id m' [] := by
  have hopen :
      openPath path mode (m.sweep (stack.hold [.text path, .text mode]).roots) = .value file m' := h
  generalize m.sweep (stack.hold [.text path, .text mode]).roots = swept at hopen
  simp only [openPath, hmode, Run.bind_apply, Run.read] at hopen
  rw [OpenFile.openAs, if_neg (by decide), if_pos rfl, OpenFile.openWriting] at hopen
  cases hlocate : swept.disk.locateForWriting path with
  | error fault => simp [hlocate, Except.map, Except.mapError, Run.ofExcept, Run.fail] at hopen
  | ok l =>
    rw [hlocate] at hopen
    cases hopen
    exact ⟨swept.files.size, rfl, ⟨path, l, .writing (.at 0) []⟩, Array.getElem?_push_size, [], [],
      Disk.stores_put (Disk.locate_of_forWriting hlocate) [], rfl, rfl⟩

/-- The arguments for opening a file to read it: its path, alone or with a mode. -/
inductive ForReading (path : String) : List Value → Prop
  | plain : ForReading path [.text path]
  | mode (mode : String) (hmode : Text.lowerCase mode = "r") :
      ForReading path [.text path, .text mode]

/-- A file that is there can be opened for reading. -/
theorem exists_open_reading (h : m.disk.read path = .ok bytes) (reads : ForReading path args)
    (spared : Spared path stack args m) : ∃ id m',
    Builtin.openFile.apply stack args m = .value (.file id) m' ∧ Pending path id m' bytes := by
  obtain ⟨l, hstores⟩ := Disk.read_eq_ok.1 h
  have hswept := spared.stores hstores
  have hargs : ∃ mode, Text.lowerCase mode = "r" ∧ Builtin.openFile.apply stack args m =
      openPath path mode (m.sweep (stack.hold args).roots) := by
    cases reads with
    | plain => exact ⟨"r", by decide, rfl⟩
    | mode mode hmode => exact ⟨mode, hmode, rfl⟩
  obtain ⟨mode, hmode, hargs⟩ := hargs
  rw [hargs]
  generalize m.sweep (stack.hold args).roots = swept at hswept
  refine ⟨swept.files.size, (swept.addFile ⟨path, l, .reading 0 []⟩ swept.disk).2, ?_,
    _, 0, [], bytes, Array.getElem?_push_size, rfl, hswept, rfl⟩
  simp only [openPath, Run.bind_apply, Run.read, hmode]
  rw [OpenFile.openAs, if_pos rfl, OpenFile.openReading]
  simp only [hswept.place, hswept.contents]
  rfl

/-- A file that is open for reading, with calls that find no other writer of its path dropped. -/
def reader (path : String) (file : Value) : LineReader where
  call m run := ∃ stack, Spared path stack [file] m ∧ run = Builtin.fileInput.apply stack [file]
  meanwhile := Apart path file

theorem reader_takes (path : String) (id : FileId) :
    (reader path (.file id)).Takes (Pending path id) where
  meanwhile := Pending.apart
  call := by
    rintro m bytes _ hpending ⟨stack, spared, rfl⟩
    obtain ⟨f, position, buffer, contents, hf, hstate, hstores, rfl⟩ :=
      hpending.sweep spared (.head _)
    have hfetch := fetchLine_eq buffer (contents.drop position)
    generalize hr : fetchLine buffer (contents.drop position) = r at hfetch
    rw [← hfetch]
    let f' : OpenFile := { f with state := .reading (position + r.count) r.buffer }
    refine ⟨(m.sweep (stack.hold [.file id]).roots).setFile id f',
      ⟨f', position + r.count, r.buffer, contents,
        Array.getElem?_setIfInBounds_self_of_lt (lt_size_of_getElem? hf), rfl,
          hstores, by rw [List.drop_drop]⟩,
      fun line hline => ?_⟩
    show readLine [.file id] (m.sweep _) = _
    have hread : f.readLine (m.sweep (stack.hold [.file id]).roots).disk = (.ok line, f') := by
      simp [OpenFile.readLine, hstate, hstores.contents, hr, f', hline, Except.mapError]
    simp only [readLine, argument, find, file_of_getElem? hf, Run.ofExcept, Run.bind_apply,
      Run.pure, Run.read, hread, Run.update]
    rfl

/-! ### Writing and reading again -/

/-- The machines on the way of writing: a file is opened for writing at a path, values are written
to it by calls that find no other writer of the path dropped, and between these calls something else
is done. With the machine stand the file and the texts of the values so far. -/
inductive Writing (path : String) : Value → List String → Machine → Prop
  | opened {stack : CallStack} {mode : String} {file : Value} {m m' : Machine}
      (writes : Text.lowerCase mode = "w")
      (opens : Builtin.openFile.apply stack [.text path, .text mode] m = .value file m') :
      Writing path file [] m'
  | meanwhile {file : Value} {texts : List String} {m m' : Machine}
      (before : Writing path file texts m) (step : Apart path file m m') :
      Writing path file texts m'
  | printed {stack : CallStack} {file v : Value} {vs : List Value} {texts : List String}
      {m m' : Machine} (before : Writing path file texts m)
      (spared : Spared path stack (file :: vs) m)
      (prints : Builtin.filePrint.apply stack (file :: vs) m = .value v m') :
      Writing path file (texts ++ vs.map (Value.display m.heap)) m'

/-- What is written so far is the texts, each with a newline after it. -/
theorem Writing.writes {file : Value} {texts : List String} (h : Writing path file texts m) :
    ∃ id, file = .file id ∧ Writes path id m (texts.flatMap fun t => Text.encode (t ++ "\n")) := by
  induction h with
  | opened writes opens => exact writes_of_open writes opens
  | meanwhile before step ih =>
    obtain ⟨id, rfl, hwrites⟩ := ih
    exact ⟨id, rfl, hwrites.apart step⟩
  | printed before spared prints ih =>
    obtain ⟨id, rfl, hwrites⟩ := ih
    obtain ⟨m₁, hprint, hwrites'⟩ := hwrites.print spared
    rw [prints] at hprint
    cases hprint
    refine ⟨id, rfl, ?_⟩
    rwa [List.flatMap_append, List.flatMap_map]

/-- Whenever the path is opened for reading, with its contents as they are now,
it gives these lines. -/
def ReadsBack (path : String) (lines : List String) (start : Machine) : Prop :=
  ∀ m, start.disk.Agrees path m.disk → ∀ stack args, ForReading path args →
    Spared path stack args m →
    ∃ file m', Builtin.openFile.apply stack args m = .value file m' ∧
      (reader path file).Gives m' lines

/-- A file that is there gives its lines. -/
theorem readsBack_of_read {content : String} (h : m.disk.read path = .ok (Text.encode content)) :
    ReadsBack path (Text.linesOf content) m := by
  intro m' agrees stack args reads spared
  obtain ⟨id, m₁, hopen, hpending⟩ := exists_open_reading (agrees.contents.trans h) reads spared
  exact ⟨.file id, m₁, hopen, (reader_takes path id).gives hpending⟩

end Files

/-- Texts that are written with a newline after each make one text, and they are its lines. -/
theorem Text.exists_written {texts : List String} (h : ∀ t ∈ texts, IsLine t.toList) :
    ∃ content, texts.flatMap (fun t => encode (t ++ "\n")) = encode content ∧
    linesOf content = texts := by
  refine ⟨String.ofList ((texts.map String.toList).flatMap (· ++ ['\n'])), ?_, ?_⟩
  · rw [← octets_toList, String.toList_ofList, List.flatMap_map, octets, List.flatMap_assoc]
    refine congrArg texts.flatMap (funext fun t => ?_)
    rw [← octets_toList, String.toList_append]
    rfl
  · rw [linesOf, String.toList_ofList, lineTexts_flatMap (List.forall_mem_map.2 h), List.map_map]
    simp [Function.comp_def]

/-- Values are written to a file in any groups, the file is closed and opened again, and then their
texts come back one by one, with nothing after them for ever; the file has nothing but these texts
with their newlines. Before each call the program may do anything that leaves the contents of the
path and the file alone, and the calls may be made from anywhere, as long as none of them finds
another writer of the same file dropped that still has something to write. The lines of every text
come back in this way from a file, and from the console. Called with arguments, the functions of
files work on their values. -/
theorem lines_come_back :
    (∀ path file texts m, Files.Writing path file texts m →
      (∀ stack vs, Files.Spared path stack (file :: vs) m →
        ∃ m', Builtin.filePrint.apply stack (file :: vs) m = .value .nothing m') ∧
      ∀ stack, Files.Spared path stack [file] m → ∃ m',
        Builtin.closeFile.apply stack [file] m = .value .nothing m' ∧
        m'.disk.read path = .ok (texts.flatMap fun t => Text.encode (t ++ "\n")) ∧
        ((∀ t ∈ texts, Text.IsLine t.toList) → Files.ReadsBack path texts m')) ∧
    (∀ path content m, m.disk.read path = .ok (Text.encode content) →
      Files.ReadsBack path (Text.linesOf content) m) ∧
    (∀ content m, m.input.pending = Text.encode content →
      Console.reader.Gives m (Text.linesOf content)) ∧
    ∀ (self : Evaluator) (stack : CallStack) (b : Builtin) (nodes : List Node) (args : List Value)
      (m m' : Machine), b ∈ [Builtin.openFile, .filePrint, .closeFile, .fileInput] →
      self.values stack nodes m = .value args m' →
      b.call self stack nodes m = b.apply stack args m' := by
  refine ⟨fun path file texts m writing => ⟨fun stack vs spared => ?_, fun stack spared => ?_⟩,
    fun path content m => Files.readsBack_of_read, fun content m => Console.reader_gives,
    fun self stack b nodes args m m' hb hvalues => ?_⟩
  · obtain ⟨id, rfl, hwrites⟩ := writing.writes
    obtain ⟨m', hprint, -⟩ := hwrites.print spared
    exact ⟨m', hprint⟩
  · obtain ⟨id, rfl, hwrites⟩ := writing.writes
    obtain ⟨m', hclose, hread⟩ := hwrites.close spared
    refine ⟨m', hclose, hread, fun hlines => ?_⟩
    obtain ⟨content, hcontent, hback⟩ := Text.exists_written hlines
    rw [hcontent] at hread
    exact hback ▸ Files.readsBack_of_read hread
  · refine Builtin.call_of_values ?_ hvalues
    simp only [List.mem_cons, List.not_mem_nil, or_false] at hb
    obtain rfl | rfl | rfl | rfl := hb <;> rfl

/-- A run has ended with the file of an identity. -/
def Files.isFile (id : FileId) : Outcome Value → Bool
  | .value (.file i) _ => i = id
  | _ => false

theorem Files.eq_of_isFile {id : FileId} {o : Outcome Value} {v : Value} {m : Machine}
    (h : o = .value v m) (hfile : isFile id o = true) : v = .file id := by
  subst h
  cases v with
  | file i => exact congrArg Value.file (of_decide_eq_true hfile)
  | _ => cases hfile

/-- A file is written by two calls and read again, and another one is read, as the console is. -/
theorem lines_come_back_returns :
    let content := "a\r\n\r\r\n\né\r"
    let lines := ["a", "\r", "", "é\r"]
    let texts := ["7", "a\rb", ""]
    let stack := CallStack.bottom 0
    let start := Machine.fresh .still ⟨[(["in"], Text.encode content)], [], []⟩
      (.ofOctets (Text.encode content))
    let opens (args : List Value) : Run Value := Builtin.openFile.apply stack args
    let prints (vs : List Value) : Run Value := Builtin.filePrint.apply stack (.file 0 :: vs)
    let closes : Run Value := Builtin.closeFile.apply stack [.file 0]
    let takes (id : FileId) : Run Value := Builtin.fileInput.apply stack [.file id]
    let asks : Run Value := Builtin.input.call (eval 0) stack []
    ∃ m₁ m₂ m₃ m₄ m₅ m₆ : Machine,
      opens [.text "out", .text "W"] start = .value (.file 0) m₁ ∧
      prints [.int 7, .text "a\rb"] m₁ = .value .nothing m₂ ∧
        prints [.text ""] m₂ = .value .nothing m₃ ∧
      closes m₃ = .value .nothing m₄ ∧ opens [.text "out"] m₄ = .value (.file 1) m₅ ∧
      (∀ k < 5, takes 1 (LineReader.repeated (takes 1) m₅ k) =
        .value (Files.lineValue texts[k]?) (LineReader.repeated (takes 1) m₅ (k + 1))) ∧
      opens [.text "in", .text "R"] start = .value (.file 0) m₆ ∧
      (∀ k < 6, takes 0 (LineReader.repeated (takes 0) m₆ k) =
        .value (Files.lineValue lines[k]?) (LineReader.repeated (takes 0) m₆ (k + 1))) ∧
      ∀ k < 6, asks (LineReader.repeated asks start k) =
        .value (Files.lineValue lines[k]?) (LineReader.repeated asks start (k + 1)) := by
  intro content lines texts stack start opens prints closes takes asks
  obtain ⟨hwritten, hread, hinput, -⟩ := lines_come_back
  let m₁ := (opens [.text "out", .text "W"]).after start
  let m₂ := (prints [.int 7, .text "a\rb"]).after m₁
  let m₃ := (prints [.text ""]).after m₂
  let m₄ := closes.after m₃
  let m₅ := (opens [.text "out"]).after m₄
  let m₆ := (opens [.text "in", .text "R"]).after start
  -- the theorem says how the calls end, and the machines that they lead to are
  -- told from their calls
  have hopen : opens [.text "out", .text "W"] start = .value (.file 0) m₁ := by
    with_unfolding_all rfl
  have writing₁ : Files.Writing "out" (.file 0) [] m₁ := .opened (by decide) hopen
  have spared₁ : Files.Spared "out" stack [.file 0, .int 7, .text "a\rb"] m₁ := by decide +kernel
  have hprint₁ :=
    Run.value_after ((hwritten _ _ _ _ writing₁).1 stack [.int 7, .text "a\rb"] spared₁)
  have writing₂ : Files.Writing "out" (.file 0) _ m₂ := .printed writing₁ spared₁ hprint₁
  have spared₂ : Files.Spared "out" stack [.file 0, .text ""] m₂ := by decide +kernel
  have hprint₂ := Run.value_after ((hwritten _ _ _ _ writing₂).1 stack [.text ""] spared₂)
  have writing₃ : Files.Writing "out" (.file 0) _ m₃ := .printed writing₂ spared₂ hprint₂
  have htexts : [] ++ [.int 7, .text "a\rb"].map (Value.display m₁.heap) ++
      [.text ""].map (Value.display m₂.heap) =
      texts := by decide +kernel
  rw [htexts] at writing₃
  obtain ⟨m', hclose, -, hback⟩ := (hwritten _ _ _ _ writing₃).2 stack (by decide +kernel)
  obtain rfl : m₄ = m' := Run.after_of_value hclose
  obtain ⟨file, m', hagain, hgives⟩ :=
    hback (by decide +kernel) m₄ ⟨rfl, rfl⟩ stack [.text "out"] .plain (by decide +kernel)
  obtain rfl : file = .file 1 := Files.eq_of_isFile hagain (by decide +kernel)
  obtain rfl : m₅ = m' := Run.after_of_value hagain
  have hin : start.disk.read "in" = .ok (Text.encode content) :=
    Disk.read_eq_ok.2 ⟨["in"], rfl, List.lookup_cons_self⟩
  obtain ⟨file, m', hagain', hgives'⟩ := hread "in" content start hin start ⟨rfl, rfl⟩ stack
    [.text "in", .text "R"] (.mode "R" (by decide)) (by decide +kernel)
  obtain rfl : file = .file 0 := Files.eq_of_isFile hagain' (by decide +kernel)
  obtain rfl : m₆ = m' := Run.after_of_value hagain'
  have hlines : Text.linesOf content = lines := by decide +kernel
  have hspared :
      ∀ k < 5, Files.Spared "out" stack [.file 1] (LineReader.repeated (takes 1) m₅ k) := by
    decide +kernel
  have hspared' :
      ∀ k < 6, Files.Spared "in" stack [.file 0] (LineReader.repeated (takes 0) m₆ k) := by
    decide +kernel
  rw [hlines] at hgives'
  refine ⟨m₁, m₂, m₃, m₄, m₅, m₆, hopen, hprint₁, hprint₂, hclose, hagain,
    hgives.repeated fun k hk => ⟨stack, hspared k hk, rfl⟩, hagain',
    hgives'.repeated fun k hk => ⟨stack, hspared' k hk, rfl⟩, ?_⟩
  exact hlines ▸ (hinput content start rfl).repeated fun k hk => ⟨eval 0, stack, rfl⟩

/-- A run has ended normally and has left an output. -/
def Outcome.leaves (output : String) : Outcome Flow → Bool
  | .value (.value .nothing) m => m.output = output
  | _ => false

theorem Outcome.exists_of_leaves {output : String} {o : Outcome Flow} (h : o.leaves output = true) :
    ∃ m, o = .value .done m ∧ m.output = output := by
  unfold Outcome.leaves at h
  split at h
  · next m => exact ⟨m, rfl, of_decide_eq_true h⟩
  · cases h

/-- The variable of a writer that was not closed is bound to a new writer of the same file. The old
one still has a line, which is written out after the file was emptied, so that something is left of
it behind the new line. -/
theorem dropped_writer_writes_over :
    let source := "F = OPEN(\"x\", \"w\")\nFPRINT F, \"a longer line\"\nF = OPEN(\"x\", \"w\")\n" ++
      "FPRINT F, \"new\"\nCLOSE F\nF = OPEN(\"x\")\nPRINT FINPUT(F), FINPUT(F), FINPUT(F)\n"
    let start : Machine := .fresh .still .empty (.ofOctets [])
    ∃ program m, Reader.program? [] [source] = some program ∧
      eval 12 (.bottom 256) program start = .value .done m ∧
        m.output = "new\nnger line\nNothing\n" := by
  intro source start
  have hrun : (Reader.program? [] [source]).any (fun program =>
      (eval 12 (.bottom 256) program start).leaves "new\nnger line\nNothing\n") = true := by
    decide +kernel
  obtain ⟨program, read, hends⟩ := (Option.any_eq_true ..).1 hrun
  obtain ⟨m, hend, houtput⟩ := Outcome.exists_of_leaves hends
  exact ⟨program, m, read, hend, houtput⟩

end LineBasic

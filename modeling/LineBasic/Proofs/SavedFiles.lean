import LineBasic.CommandLine
import LineBasic.Proofs.Images
import LineBasic.Proofs.Inlining

/-!
# Saved programs and source text

A file with a program is taken for a saved one if it starts with four octets. These are
letters, and a source text can start with the same letters, as those of a name. Then the file
is not read as source text, and it cannot be loaded either: what a saved program has next does
not stand in source text.

* `Text.prefix_encode_iff` : how the octets of a text start, if that is ASCII.
* `Image.isImage_encode` : the source texts that are taken for saved programs.
* `Reader.not_header_of_program?` : none of them has the whole header of a saved program.
* `files_told_apart_by_mark` : what becomes of saved programs and of source texts that can be read.
-/

namespace LineBasic

/-! ### Octets of ASCII texts -/

namespace Text

/-- The octet of an ASCII character. -/
def octet (c : Char) : UInt8 := UInt8.ofNat c.toNat

theorem utf8EncodeChar_of_ascii {c : Char} (h : c.toNat < 128) :
    String.utf8EncodeChar c = [octet c] := by
  have hle : c.val.toNat ≤ 127 := Nat.le_of_lt_succ h
  simp only [String.utf8EncodeChar, hle, if_true]
  rfl

/-- An octet below 128 stands for one character, and for nothing else. -/
theorem eq_of_utf8EncodeChar {c d : Char} {bs : List UInt8} (hd : d.toNat < 128)
    (h : String.utf8EncodeChar c = octet d :: bs) : c = d := by
  have hoctet : (octet d).toNat = d.toNat := by
    simp only [octet, UInt8.toNat_ofNat']
    omega
  have hfirst {n : Nat} (hn : UInt8.ofNat n = octet d) : n % 256 = d.toNat := by
    rw [← hoctet, ← hn, UInt8.toNat_ofNat']
  -- the first octet of a longer form is at least 192
  unfold String.utf8EncodeChar at h
  simp only at h
  split at h
  · have hn := hfirst (List.cons.inj h).1
    refine Char.toNat_inj.1 ?_
    show c.val.toNat = d.toNat
    omega
  · split at h
    · have hn := hfirst (List.cons.inj h).1
      omega
    · split at h
      · have hn := hfirst (List.cons.inj h).1
        omega
      · have hn := hfirst (List.cons.inj h).1
        omega

/-- The octets of a text start with those of an ASCII text where the text starts with it. -/
theorem prefix_flatMap_iff {w cs : List Char} (ascii : ∀ c ∈ w, c.toNat < 128) :
    w.map octet <+: cs.flatMap String.utf8EncodeChar ↔ w <+: cs := by
  induction w generalizing cs with
  | nil => simp
  | cons d w ih =>
    have hd : d.toNat < 128 := ascii d (by simp)
    have hw : ∀ c ∈ w, c.toNat < 128 := fun c hc => ascii c (by simp [hc])
    cases cs with
    | nil => simp
    | cons c cs =>
      rw [List.map_cons, List.flatMap_cons, List.cons_prefix_cons]
      by_cases hc : c = d
      · rw [hc, utf8EncodeChar_of_ascii hd, List.singleton_append, List.cons_prefix_cons, ih hw]
        simp
      · constructor
        · intro hprefix
          cases hoctets : String.utf8EncodeChar c with
          | nil => exact absurd hoctets (String.utf8EncodeChar_ne_nil)
          | cons b bs =>
            rw [hoctets, List.cons_append, List.cons_prefix_cons] at hprefix
            rw [← hprefix.1] at hoctets
            exact absurd (eq_of_utf8EncodeChar hd hoctets) hc
        · rintro ⟨hdc, -⟩
          exact absurd hdc.symm hc

/-- The same for texts, with a test for ASCII. -/
theorem prefix_encode_iff {w : String} (ascii : w.toList.all (fun c => c.toNat < 128) = true)
    (s : String) :
    w.toList.map octet <+: encode s ↔ w.toList <+: s.toList := by
  rw [encode_eq]
  exact prefix_flatMap_iff fun c hc => of_decide_eq_true (List.all_eq_true.1 ascii c hc)

end Text

/-! ### How saved programs and source texts start -/

namespace Image

theorem mark_eq : mark = "BAST".toList.map Text.octet := by decide

theorem header_eq : header = "BAST\x01\x00".toList.map Text.octet := by decide

theorem isImage_iff {bytes : Octets} : isImage bytes = true ↔ mark <+: bytes :=
  List.isPrefixOf_iff_prefix

theorem isImage_save (program : Node) : isImage (save program) = true := by
  rw [isImage_iff, save, header, List.append_assoc]
  exact List.prefix_append _ _

/-- A source text is taken for a saved program if it starts with the letters of the mark. -/
theorem isImage_encode (source : String) :
    isImage (Text.encode source) = true ↔ "BAST".toList <+: source.toList := by
  rw [isImage_iff, mark_eq]
  exact Text.prefix_encode_iff rfl source

/-- What can be loaded has the whole header. -/
theorem header_of_load {source : String} {program : Node}
    (h : load (Text.encode source) = .ok program) :
    "BAST\x01\x00".toList <+: source.toList := by
  obtain ⟨rest, -, hbytes, -⟩ := of_load h
  rw [← Text.prefix_encode_iff rfl, ← header_eq, hbytes, save, List.append_assoc]
  exact List.prefix_append _ _

end Image

/-- No piece of the language starts with the character after the mark. -/
theorem statementOf?_header (l : List Char) :
    statementOf? ('B' :: 'A' :: 'S' :: 'T' :: '\x01' :: l) = none := by
  have hname : Piece.name 'B' ('A' :: 'S' :: 'T' :: '\x01' :: l) = .token .name 3 .nothing := by
    have htake :
        ('A' :: 'S' :: 'T' :: '\x01' :: l).takeWhile Text.isNamePart = ['A', 'S', 'T'] := rfl
    simp only [Piece.name, htake]
    rfl
  have herror : (scanFrom ⟨1, 0⟩ ('B' :: 'A' :: 'S' :: 'T' :: '\x01' :: l)).error ≠ none := by
    rw [scanFrom_cons, piece_of_isNameStart (by decide), hname]
    simp only [List.drop_succ_cons, List.drop_zero, Scan.cons]
    rw [scanFrom_cons, show piece '\x01' l = .fault (.illegalCharacter '\x01') from rfl]
    simp
  obtain ⟨e, he⟩ := Option.ne_none_iff_exists'.1 herror
  simp only [statementOf?, he]

namespace Reader

variable {catalog : Catalog} {source : String} {tree : Node}

/-- A source text that can be read does not start like a saved program for longer than the mark. -/
theorem not_header_of_program? (h : program? catalog [source] = some tree) :
    ¬"BAST\x01\x00".toList <+: source.toList := by
  rintro ⟨rest, hrest⟩
  obtain ⟨l, ls, hls⟩ := List.exists_cons_of_ne_nil (Text.lines_ne_nil rest)
  have hlines :
      Text.lines source.toList = ('B' :: 'A' :: 'S' :: 'T' :: '\x01' :: '\x00' :: l) :: ls := by
    rw [← hrest]
    simp [Text.lines, hls]
  have hnone : statementsOf? source.toList = none := by
    rw [statementsOf?, hlines, List.mapM_cons, statementOf?_header]
    rfl
  simp [program?, parseAll?, parse?_eq, hnone] at h

end Reader

/-! ### Files -/

/-- An action that was done is gone on from. -/
theorem Session.bind_of_some {α β : Type} {a : Action α} {f : α → Action β} {s s' : Session} {x : α}
    (h : a s = some (x, s')) : (a >>= f) s = f x s' := by
  show ((a s).bind fun p => f p.1 p.2) = f x s'
  rw [h]
  rfl

/-- A source text that can be read is one piece, after which no construct is open. -/
theorem Reader.exists_parse_of_program? {catalog : Catalog} {source : String} {tree : Node}
    (h : program? catalog [source] = some tree) :
    ∃ r nodes, start.parse catalog source = (r, .ok nodes) ∧ r.finish = .ok tree := by
  cases hparse : start.parse catalog source with
  | mk r result =>
    cases result with
    | error e => simp [program?, parseAll?, parse?, hparse] at h
    | ok nodes =>
      have hfinish : r.finish.toOption = some tree := by
        simpa [program?, parseAll?, parse?, hparse] using h
      refine ⟨r, nodes, rfl, ?_⟩
      cases hr : r.finish with
      | error e => simp [hr, Except.toOption] at hfinish
      | ok n => simpa [hr, Except.toOption] using hfinish

/-- A session that has read nothing builds the tree of a source text that can be read. -/
theorem Session.build_of_program? {s : Session} {source : String} {tree : Node}
    (fresh : s.reader = .start)
    (h : Reader.program? (s.loader.catalog s.disk) [source] = some tree) :
    ∃ s', s'.machine = s.machine ∧ Session.build [source] s = some (.ok tree, s') := by
  obtain ⟨r, nodes, hparse, hfinish⟩ := Reader.exists_parse_of_program? h
  refine ⟨{ s with reader := r, handed := s.handed ++ nodes.toArray }, rfl, ?_⟩
  have hone : Session.parse source s =
      some (.ok nodes, { s with reader := r, handed := s.handed ++ nodes.toArray }) := by
    simp only [Session.parse, fresh, hparse]
  have hall : Session.parseAll [source] s =
      some (.ok (), { s with reader := r, handed := s.handed ++ nodes.toArray }) :=
    Session.bind_of_some hone
  rw [build, Session.bind_of_some hall]
  show some (r.finish, _) = _
  rw [hfinish]

namespace CommandLine

variable {r : Request} {path : String} {s : Session} {bytes : Octets}

/-- A file with a program: the program is used. -/
theorem runFile_of_ok (hfile : s.machine.disk.read path = .ok bytes) {program : Node} {s' : Session}
    (h : programOf path bytes s = some (.ok program, s')) :
    runFile r path s = use r program s' := by
  have hget : (get : Session.Action Session) s = some (s, s) := rfl
  rw [runFile, Session.bind_of_some hget, hfile]
  exact Session.bind_of_some h

/-- A file without one: the error is reported. -/
theorem runFile_of_error (hfile : s.machine.disk.read path = .ok bytes) {e : Error} {s' : Session}
    (h : programOf path bytes s = some (.error e, s')) :
    runFile r path s = some (.error e, s') := by
  have hget : (get : Session.Action Session) s = some (s, s) := rfl
  rw [runFile, Session.bind_of_some hget, hfile]
  exact Session.bind_of_some h

/-- A file that starts with the mark is loaded. -/
theorem programOf_of_isImage (h : Image.isImage bytes = true) :
    programOf path bytes s = some ((Image.load bytes).mapError .image, s) := by
  rw [programOf, if_pos h]
  rfl

/-- Any other file is read as source text. -/
theorem programOf_of_source {source : String} (h : Image.isImage (Text.encode source) = false) :
    programOf path (Text.encode source) s = Session.build [source] s := by
  rw [programOf, if_neg (by simp [h]), Text.decode_encode]

/-- Every saved program starts with the mark, and a file with it is loaded and used. A source text
that can be read starts with the mark where it starts with the same letters. A file with one that
does not is read as source text and used. But one that does is neither read as source text nor
loaded: it is refused. -/
theorem files_told_apart_by_mark (r : Request) {path : String} {s : Session}
    (fresh : s.reader = .start) {bytes : Octets} (hfile : s.machine.disk.read path = .ok bytes) :
    (∀ program, Image.isImage (Image.save program) = true ∧
      (program.Storable → bytes = Image.save program → runFile r path s = use r program s)) ∧
    ∀ source tree, bytes = Text.encode source →
      Reader.program? (s.loader.catalog s.disk) [source] = some tree →
      (Image.isImage bytes = true ↔ "BAST".toList <+: source.toList) ∧
      (¬"BAST".toList <+: source.toList →
        ∃ s', s'.machine = s.machine ∧ runFile r path s = use r tree s') ∧
      ("BAST".toList <+: source.toList →
        ∃ fault, runFile r path s = some (.error (.image fault), s)) := by
  refine ⟨fun program => ⟨Image.isImage_save program, fun storable hbytes => ?_⟩,
    fun source tree hbytes read => ⟨?_, fun hother => ?_, fun hmark => ?_⟩⟩
  · have hload : Image.load bytes = .ok program := by
      rw [hbytes, ← List.append_nil (Image.save program)]
      exact Image.load_save_append storable []
    have himage : Image.isImage bytes = true := by rw [hbytes, Image.isImage_save]
    refine runFile_of_ok hfile ?_
    rw [programOf_of_isImage himage, hload]
    rfl
  · rw [hbytes]
    exact Image.isImage_encode source
  · have hsource : Image.isImage (Text.encode source) = false := by
      rw [← Image.isImage_encode] at hother
      simpa using hother
    obtain ⟨s', hmachine, hbuild⟩ := Session.build_of_program? fresh read
    refine ⟨s', hmachine, runFile_of_ok hfile ?_⟩
    rw [hbytes, programOf_of_source hsource, hbuild]
  · have himage : Image.isImage bytes = true := by
      rw [hbytes]
      exact (Image.isImage_encode source).2 hmark
    cases hload : Image.load bytes with
    | ok program =>
      rw [hbytes] at hload
      exact absurd (Image.header_of_load hload) (Reader.not_header_of_program? read)
    | error fault =>
      refine ⟨fault, runFile_of_error hfile ?_⟩
      rw [programOf_of_isImage himage, hload]
      rfl

/-- A session with one file on its disk, and without modules. -/
def sessionWith (bytes : Octets) : Session :=
  .start (.fixed []) Session.defaultLimit .still ⟨[(["p"], bytes)], [], []⟩ (.ofOctets [])

theorem read_sessionWith (bytes : Octets) :
    (sessionWith bytes).machine.disk.read "p" = .ok bytes := by
  rfl

/-- An assignment to the name `BAST` is a program, but its text is taken for a
saved one and refused. -/
theorem source_taken_for_saved :
    let s := sessionWith (Text.encode "BAST = 1")
    (Reader.program? [] ["BAST = 1"]).isSome = true ∧
      Image.isImage (Text.encode "BAST = 1") = true ∧
    ∀ r, runFile r "p" s = some (.error (.image (.unsupportedVersion 15648)), s) := by
  intro s
  have himage : Image.isImage (Text.encode "BAST = 1") = true := by decide +kernel
  have hload : Image.load (Text.encode "BAST = 1") = .error (.unsupportedVersion 15648) := by
    with_unfolding_all rfl
  refine ⟨by decide +kernel, himage, fun r => runFile_of_error (read_sessionWith _) ?_⟩
  rw [programOf_of_isImage himage, hload]
  rfl

/-- The text of that assignment is refused, that of another one is read, and a
saved program is loaded. -/
theorem files_told_apart_by_mark_names :
    let r : Request := ⟨some "p", false, none⟩
    let text (source : String) : Session := sessionWith (Text.encode source)
    let saved : Session := sessionWith (Image.save (.program []))
    (∃ fault, runFile r "p" (text "BAST = 1") = some (.error (.image fault), text "BAST = 1")) ∧
    (∃ tree s, Reader.program? [] ["BEST = 1"] = some tree ∧
      runFile r "p" (text "BEST = 1") = use r tree s) ∧
    runFile r "p" saved = use r (.program []) saved := by
  intro r text saved
  obtain ⟨bast, hbast⟩ : ∃ tree, Reader.program? [] ["BAST = 1"] = some tree :=
    Option.isSome_iff_exists.1 (by decide +kernel)
  obtain ⟨best, hbest⟩ : ∃ tree, Reader.program? [] ["BEST = 1"] = some tree :=
    Option.isSome_iff_exists.1 (by decide +kernel)
  have hfirst :=
    (files_told_apart_by_mark r (s := text "BAST = 1") rfl (read_sessionWith _)).2 _ _ rfl hbast
  have hsecond :=
    (files_told_apart_by_mark r (s := text "BEST = 1") rfl (read_sessionWith _)).2 _ _ rfl hbest
  have hthird := (files_told_apart_by_mark r (s := saved) rfl (read_sessionWith _)).1 (.program [])
  obtain ⟨s, -, hs⟩ := hsecond.2.1 (by decide)
  exact ⟨hfirst.2.2 (by decide), ⟨best, s, hbest, hs⟩, hthird.2 (by decide +kernel) rfl⟩

end CommandLine
end LineBasic

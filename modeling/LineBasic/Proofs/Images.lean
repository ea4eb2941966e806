import LineBasic.Proofs.Decoding
import LineBasic.Proofs.WellFormed

/-!
# Saved programs

Saving and loading undo each other. What was saved is loaded, whatever follows it, and no part of it
is enough. What is loaded was saved, octet by octet, so that every program has one saved form.

* `Node.Storable` : trees whose lists and texts have lengths that can be written.
* `decode_inverts`, `decode_exact`, `decode_prolongs` : the laws of decoders
  for trees of any height.
* `readImage` : a saved program and what follows it.
* `load_save`, `save_of_load` : from programs to saved forms and back, and the other way round.
-/

namespace LineBasic

/-! ### Trees that can be written -/

section Deciding

instance (s : String) : Decidable (Text.Storable s) := inferInstanceAs (Decidable (_ < _))

instance (ss : List String) : Decidable (Text.AllStorable ss) := inferInstanceAs (Decidable (_ ∧ _))

instance : (v : Literal) → Decidable v.Storable
  | .text s => inferInstanceAs (Decidable (Text.Storable s))
  | .int _ | .float _ | .bool _ | .nothing => .isTrue trivial

instance : (what : Inclusion) → Decidable what.Storable
  | .library name => inferInstanceAs (Decidable (Text.Storable name))
  | .script path => inferInstanceAs (Decidable (Text.Storable path))

instance : (c : Control) → Decidable c.Storable
  | .forLoop counter => inferInstanceAs (Decidable (Text.Storable counter))
  | .subroutine _ _ | .function _ _ => inferInstanceAs (Decidable (_ ∧ _))
  | .inclusion what => inferInstanceAs (Decidable what.Storable)
  | .program | .block | .chain | .branch _ | .whileLoop | .doLoop | .exitLoop | .continueLoop
  | .returned => .isTrue trivial

instance : (k : NodeKind) → Decidable k.Storable
  | .control c => inferInstanceAs (Decidable c.Storable)
  | .call target => inferInstanceAs (Decidable (Text.Storable target))
  | .name s => inferInstanceAs (Decidable (Text.Storable s))
  | .literal v => inferInstanceAs (Decidable v.Storable)
  | .array => .isTrue trivial

end Deciding

namespace Node

/-- All lists and texts of the tree have fewer items than eight octets can count. -/
def Storable (n : Node) : Prop :=
  ∀ d ∈ n.nodes, d.kind.Storable ∧ d.children.length < Image.sizeLimit

instance (n : Node) : Decidable n.Storable :=
  inferInstanceAs (Decidable (∀ d ∈ n.nodes, _))

theorem storable_mk {k : NodeKind} {cs : List Node} {b : Option UInt64} :
    (mk k cs b).Storable ↔ k.Storable ∧ cs.length < Image.sizeLimit ∧ ∀ c ∈ cs, c.Storable := by
  constructor
  · intro h
    obtain ⟨hkind, hlength⟩ := h (mk k cs b) (mem_nodes.2 (.inl rfl))
    exact ⟨hkind, hlength, fun c hc d hd => h d (mem_nodes.2 (.inr ⟨c, hc, hd⟩))⟩
  · rintro ⟨hkind, hlength, hchildren⟩ d hd
    rcases mem_nodes.1 hd with rfl | ⟨c, hc, hd⟩
    · exact ⟨hkind, hlength⟩
    · exact hchildren c hc d hd

end Node

namespace Image

/-! ### Trees -/

theorem encodeAll_eq (ns : List Node) : encodeAll ns = ns.flatMap encode := by
  induction ns with
  | nil => rfl
  | cons n ns ih => rw [encodeAll, ih, List.flatMap_cons]

/-- The image of a child is shorter than that of its parent. -/
theorem length_encode_lt {k : NodeKind} {cs : List Node} {b : Option UInt64} {c : Node}
    (h : c ∈ cs) :
    (encode c).length < (encode (.mk k cs b)).length := by
  obtain ⟨before, after, rfl⟩ := List.append_of_mem h
  simp only [encode, encodeAll_eq, size, List.length_append, List.flatMap_append, List.flatMap_cons,
    length_number]
  omega

theorem decodeUpTo_inverts (fuel : Nat) :
    (decodeUpTo fuel).Inverts encode fun n => n.Storable ∧ (encode n).length < fuel := by
  induction fuel with
  | zero => exact fun n hn => absurd hn.2 (Nat.not_lt_zero _)
  | succ fuel ih =>
    rintro ⟨k, cs, b⟩ ⟨hstorable, hfuel⟩ rest
    obtain ⟨hkind, hlength, hchildren⟩ := Node.storable_mk.1 hstorable
    have hchild : ∀ c ∈ cs, ∀ rest, decodeUpTo fuel (encode c ++ rest) = .ok (c, rest) := by
      intro c hc
      have hshorter : (encode c).length < (encode (.mk k cs b)).length := length_encode_lt hc
      exact ih c ⟨hchildren c hc, by omega⟩
    rw [encode, encodeAll_eq, decodeUpTo]
    simp only [List.append_assoc]
    rw [Decoder.bind_ok (readKind_inverts k hkind _),
      Decoder.bind_ok (readList_inverts hlength hchild _),
      Decoder.map_ok (readBodyIndex_inverts b trivial rest)]

theorem decodeUpTo_exact (fuel : Nat) : (decodeUpTo fuel).Exact encode Node.Storable := by
  induction fuel with
  | zero => exact fun bs n rest h => nomatch h
  | succ fuel ih =>
    intro bs n rest h
    obtain ⟨k, rest₁, hkind, h₁⟩ := Decoder.bind_eq_ok h
    obtain ⟨cs, rest₂, hchildren, h₂⟩ := Decoder.bind_eq_ok h₁
    obtain ⟨b, rfl, hbody, -⟩ := readBodyIndex_exact.of_map h₂
    obtain ⟨hbs, hk⟩ := readKind_exact _ _ _ hkind
    obtain ⟨hlist, hlength, hcs⟩ := readList_exact ih _ _ _ hchildren
    refine ⟨?_, Node.storable_mk.2 ⟨hk, hlength, hcs⟩⟩
    rw [hbs, hlist, hbody, encode, encodeAll_eq]
    simp only [List.append_assoc]

/-- More fuel finds the same. -/
theorem decodeUpTo_prolongs {fuel fuel' : Nat} (h : fuel ≤ fuel') :
    (decodeUpTo fuel).Prolongs (decodeUpTo fuel') := by
  induction fuel generalizing fuel' with
  | zero =>
    refine fun bs more => ⟨fun n rest h => (nomatch h), fun e h he => ?_⟩
    cases h
    exact absurd rfl he
  | succ fuel ih =>
    obtain ⟨more, rfl⟩ : ∃ more, fuel' = more + 1 := ⟨fuel' - 1, by omega⟩
    have hparts := readList_prolongs (ih (Nat.le_of_succ_le_succ h))
    exact readKind_prolongs.bind fun k => hparts.bind fun cs => readBodyIndex_prolongs.map _

theorem decode_inverts : decode.Inverts encode Node.Storable := by
  intro n hn rest
  refine decodeUpTo_inverts _ n ⟨hn, ?_⟩ rest
  rw [List.length_append]
  omega

theorem decode_exact : decode.Exact encode Node.Storable :=
  fun bs => decodeUpTo_exact (bs.length + 1) bs

theorem decode_prolongs : decode.Prolongs decode := by
  intro bs more
  refine decodeUpTo_prolongs ?_ bs more
  rw [List.length_append]
  omega

/-! ### Whole files -/

theorem readHeader_append (rest : Octets) : readHeader (header ++ rest) = .ok ((), rest) := rfl

theorem eq_of_readHeader {bs rest : Octets} (h : readHeader bs = .ok ((), rest)) :
    bs = header ++ rest := by
  obtain ⟨m, rest₁, hmark, h₁⟩ := Decoder.bind_eq_ok h
  obtain ⟨v, rest₂, hversion, h₂⟩ := Decoder.bind_eq_ok h₁
  obtain ⟨hbs, -⟩ := eq_of_readOctets hmark
  obtain ⟨hrest, -⟩ := readNumber_exact 2 _ _ _ hversion
  split at h₂
  · cases h₂
  · next hm =>
    split at h₂
    · cases h₂
    · next hv =>
      cases h₂
      rw [hbs, hrest, Decidable.not_not.1 hm, Decidable.not_not.1 hv, header, List.append_assoc]

theorem readHeader_prolongs : readHeader.Prolongs readHeader := by
  refine (readOctets_prolongs 4).bind fun m => (readNumber_prolongs 2).bind fun v => ?_
  split
  · exact Decoder.prolongs_fail _
  · split
    · exact Decoder.prolongs_fail _
    · exact Decoder.prolongs_pure ()

/-- Reads a saved program. -/
def readImage : Decoder Node := readHeader.bind fun _ => decode

theorem load_eq (bs : Octets) : load bs = (readImage bs).map Prod.fst := by
  unfold load readImage
  cases (readHeader.bind fun _ => decode) bs <;> rfl

theorem readImage_inverts : readImage.Inverts save Node.Storable := by
  intro n hn rest
  rw [save, List.append_assoc, readImage, Decoder.bind_ok (readHeader_append _)]
  exact decode_inverts n hn rest

theorem readImage_exact : readImage.Exact save Node.Storable := by
  intro bs n rest h
  obtain ⟨_, rest', hheader, hdecode⟩ := Decoder.bind_eq_ok h
  obtain ⟨htree, hn⟩ := decode_exact _ _ _ hdecode
  refine ⟨?_, hn⟩
  rw [eq_of_readHeader hheader, htree, save, List.append_assoc]

theorem readImage_prolongs : readImage.Prolongs readImage :=
  readHeader_prolongs.bind fun _ => decode_prolongs

/-- What is loaded stands at the start of the octets, in its saved form. -/
theorem of_load {bs : Octets} {n : Node} (h : load bs = .ok n) :
    ∃ rest, readImage bs = .ok (n, rest) ∧ bs = save n ++ rest ∧ n.Storable := by
  rw [load_eq] at h
  cases hread : readImage bs with
  | error e =>
    rw [hread] at h
    cases h
  | ok r =>
    obtain ⟨n', rest⟩ := r
    rw [hread] at h
    cases h
    exact ⟨rest, rfl, readImage_exact bs _ rest hread⟩

theorem load_save_append {n : Node} (h : n.Storable) (rest : Octets) :
    load (save n ++ rest) = .ok n := by
  rw [load_eq, readImage_inverts n h rest]
  rfl

/-- A saved program is loaded as it was, whatever follows it. A part of it that stops early is
refused, wherever it stops. -/
theorem load_save (program : Node) (storable : program.Storable) :
    (∀ rest, load (save program ++ rest) = .ok program) ∧
      ∀ part, part <+: save program → part ≠ save program → load part = .error .truncated := by
  refine ⟨load_save_append storable, ?_⟩
  rintro part ⟨more, hmore⟩ hpart
  have hwhole : readImage (part ++ more) = .ok (program, []) := by
    rw [hmore, ← List.append_nil (save program)]
    exact readImage_inverts program storable []
  have hne : more ≠ [] := by
    rintro rfl
    exact hpart (by rw [← hmore, List.append_nil])
  rw [load_eq, readImage_prolongs.truncated hwhole hne]
  rfl

/-- A tree of a shape that no source text has: a loop over an unnamed counter whose body
has an index far beyond its children, with a literal that is not a number, a text outside
of ASCII and a script. -/
theorem load_save_odd_tree :
    let odd : Node := .mk (.control (.forLoop "")) [
      .mk (.control (.function "F" ["A", "A"])) [.literal (.float 0x7FF8000000000001)] (some 7),
      .mk (.literal (.text "né\n☃")) [.literal (.int (-1)), .literal (.bool true)] none,
      .plain (.inclusion (.script "tools/run.sh")) []] (some 0xFFFFFFFFFFFFFFFF)
    odd.Storable ∧ load (save odd ++ [1, 2, 3]) = .ok odd ∧
      load ((save odd).take 100) = .error .truncated := by
  intro odd
  have hstorable : odd.Storable := by decide +kernel
  obtain ⟨hload, hpart⟩ := load_save odd hstorable
  refine ⟨hstorable, hload [1, 2, 3], hpart _ (List.take_prefix ..) ?_⟩
  decide +kernel

/-- What is loaded was saved: the saved form of a loaded program is the part of the octets
that was read, and what comes after it does not matter. The saved form is the only one from
which the program is read. -/
theorem save_of_load {bytes : Octets} {program : Node} (loaded : load bytes = .ok program) :
    ∃ rest, readImage bytes = .ok (program, rest) ∧ bytes = save program ++ rest ∧
      (∀ others, load (save program ++ others) = .ok program) ∧
      (∀ part, part <+: bytes → (load part = .ok program ↔ save program <+: part)) ∧
      ∀ bytes' rest', readImage bytes' = .ok (program, rest') → bytes' = save program ++ rest' := by
  obtain ⟨rest, hread, hbytes, hstorable⟩ := of_load loaded
  refine ⟨rest, hread, hbytes, load_save_append hstorable, fun part _ => ⟨?_, ?_⟩, ?_⟩
  · intro hpart
    obtain ⟨rest', -, hsaved, -⟩ := of_load hpart
    exact ⟨rest', hsaved.symm⟩
  · rintro ⟨rest', rfl⟩
    exact load_save_append hstorable rest'
  · intro bytes' rest' hread'
    exact (readImage_exact bytes' program rest' hread').1

/-- Octets that hold an array without elements and two octets more. -/
theorem save_of_load_array :
    load (header ++ [4, 0, 0, 0, 0, 0, 0, 0, 0, 0, 0, 0, 0, 9, 9]) = .ok (.array []) ∧
      ∃ rest, header ++ [4, 0, 0, 0, 0, 0, 0, 0, 0, 0, 0, 0, 0, 9, 9] =
        save (.array []) ++ rest := by
  have loaded :
      load (header ++ [4, 0, 0, 0, 0, 0, 0, 0, 0, 0, 0, 0, 0, 9, 9]) = .ok (.array []) := by
    with_unfolding_all rfl
  obtain ⟨rest, -, hbytes, -⟩ := save_of_load loaded
  exact ⟨loaded, rest, hbytes⟩

end Image
end LineBasic

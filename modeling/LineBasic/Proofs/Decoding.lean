import Mathlib.Algebra.Group.Nat.Defs
import LineBasic.Tree.Image

/-!
# Laws of decoders

Two laws say that a decoder and an encoder belong together, and a third one says that a decoder
looks at no more octets than it reads.

* `Decoder.Inverts` : what the encoder writes is read back, whatever follows it.
* `Decoder.Exact` : nothing is read but what the encoder writes.
* `Decoder.Prolongs` : what is found in some octets is found in them with others after them, unless
  there were too few of them.

Each law passes through `Decoder.bind`, and holds for the decoder of every part of a node, on the
values whose lengths can be written (`Text.Storable`, `NodeKind.Storable`).
-/

namespace LineBasic

/-! ### Values that can be written -/

/-- Lengths are written in eight octets, which hold the length of anything that memory holds. -/
def Image.sizeLimit : Nat := 256 ^ 8

/-- The length of a text can be written. -/
def Text.Storable (s : String) : Prop := (Text.encode s).length < Image.sizeLimit

/-- The number of items can be written, and so can the items. -/
def Text.AllStorable (ss : List String) : Prop :=
  ss.length < Image.sizeLimit ∧ ∀ s ∈ ss, Storable s

/-- A literal that can be written. -/
def Literal.Storable : Literal → Prop
  | text s => Text.Storable s
  | _ => True

/-- What a `USE` statement found can be written. -/
def Inclusion.Storable : Inclusion → Prop
  | library name => Text.Storable name
  | script path => Text.Storable path

/-- A construct that can be written. -/
def Control.Storable : Control → Prop
  | forLoop counter => Text.Storable counter
  | subroutine name params => Text.Storable name ∧ Text.AllStorable params
  | function name params => Text.Storable name ∧ Text.AllStorable params
  | inclusion what => what.Storable
  | _ => True

/-- A kind of node that can be written. -/
def NodeKind.Storable : NodeKind → Prop
  | control c => c.Storable
  | call target => Text.Storable target
  | name s => Text.Storable s
  | literal v => v.Storable
  | array => True

namespace Image

/-! ### The laws -/

namespace Decoder

variable {α β γ : Type}

/-- The decoder reads back what `write` makes of the values in `S`. -/
def Inverts (p : Decoder α) (write : α → Octets) (S : α → Prop) : Prop :=
  ∀ a, S a → ∀ rest, p (write a ++ rest) = .ok (a, rest)

/-- The decoder reads only what `write` makes of values in `S`. -/
def Exact (p : Decoder α) (write : α → Octets) (S : α → Prop) : Prop :=
  ∀ bs a rest, p bs = .ok (a, rest) → bs = write a ++ rest ∧ S a

/-- What `p` finds in some octets, `q` finds in them with others after them. Octets that end too
early for `p` tell nothing. -/
def Prolongs (p q : Decoder α) : Prop :=
  ∀ bs more, (∀ a rest, p bs = .ok (a, rest) → q (bs ++ more) = .ok (a, rest ++ more)) ∧
    ∀ e, p bs = .error e → e ≠ .truncated → q (bs ++ more) = .error e

theorem bind_ok {p : Decoder α} {f : α → Decoder β} {bs rest : Octets} {a : α}
    (h : p bs = .ok (a, rest)) : p.bind f bs = f a rest := by
  simp only [bind, h]

theorem map_ok {p : Decoder α} {f : α → β} {bs rest : Octets} {a : α}
    (h : p bs = .ok (a, rest)) : p.map f bs = .ok (f a, rest) :=
  bind_ok h

/-- One thing read after another. -/
theorem bind_eq_ok {p : Decoder α} {f : α → Decoder β} {bs rest : Octets} {b : β}
    (h : p.bind f bs = .ok (b, rest)) :
    ∃ a rest', p bs = .ok (a, rest') ∧ f a rest' = .ok (b, rest) := by
  unfold bind at h
  split at h
  · next a rest' hp => exact ⟨a, rest', hp, h⟩
  · cases h

theorem map_eq_ok {p : Decoder α} {f : α → β} {bs rest : Octets} {b : β}
    (h : p.map f bs = .ok (b, rest)) : ∃ a, p bs = .ok (a, rest) ∧ b = f a := by
  obtain ⟨a, rest', hp, hpure⟩ := bind_eq_ok h
  cases hpure
  exact ⟨a, hp, rfl⟩

/-- What is read through a decoder that reads only what was written. -/
theorem Exact.of_map {p : Decoder α} {write : α → Octets} {S : α → Prop} {f : α → β}
    {bs rest : Octets} {b : β} (hp : p.Exact write S) (h : p.map f bs = .ok (b, rest)) :
    ∃ a, b = f a ∧ bs = write a ++ rest ∧ S a := by
  obtain ⟨a, ha, hb⟩ := map_eq_ok h
  exact ⟨a, hb, hp bs a rest ha⟩

theorem prolongs_pure (a : α) : (pure a : Decoder α).Prolongs (pure a) := by
  intro bs more
  refine ⟨fun b rest h => ?_, fun e h => (nomatch h)⟩
  cases h
  rfl

theorem prolongs_fail (e : ImageFault) : (fail e : Decoder α).Prolongs (fail e) := by
  refine fun bs more => ⟨fun a rest h => (nomatch h), fun e' h _ => ?_⟩
  cases h
  rfl

theorem Prolongs.bind {p q : Decoder α} {f g : α → Decoder β} (hp : p.Prolongs q)
    (hf : ∀ a, (f a).Prolongs (g a)) : (p.bind f).Prolongs (q.bind g) := by
  intro bs more
  obtain ⟨hok, herror⟩ := hp bs more
  simp only [Decoder.bind]
  cases h : p bs with
  | ok r =>
    obtain ⟨a, rest⟩ := r
    simp only [hok a rest h]
    exact hf a rest more
  | error e =>
    refine ⟨fun b rest h' => (nomatch h'), fun e' h' he' => ?_⟩
    obtain rfl : e = e' := Except.error.inj h'
    rw [herror e h he']

theorem Prolongs.map {p q : Decoder α} (hp : p.Prolongs q) (f : α → β) :
    (p.map f).Prolongs (q.map f) :=
  hp.bind fun a => prolongs_pure (f a)

/-- Octets that end inside what was written end too early. -/
theorem Prolongs.truncated {p q : Decoder α} {a : α} {bs more : Octets} (hp : p.Prolongs q)
    (whole : q (bs ++ more) = .ok (a, [])) (hmore : more ≠ []) : p bs = .error .truncated := by
  obtain ⟨hok, herror⟩ := hp bs more
  cases h : p bs with
  | ok r =>
    obtain ⟨b, rest⟩ := r
    have hrest := whole.symm.trans (hok b rest h)
    simp only [Except.ok.injEq, Prod.mk.injEq] at hrest
    exact absurd (List.append_eq_nil_iff.1 hrest.2.symm).2 hmore
  | error e =>
    by_cases he : e = .truncated
    · rw [he]
    · exact nomatch whole.symm.trans (herror e h he)

end Decoder

/-! ### Numbers -/

theorem length_number (width n : Nat) : (number width n).length = width := by
  induction width generalizing n with
  | zero => rfl
  | succ width ih => simp [number, ih]

theorem value_number {width n : Nat} (h : n < 256 ^ width) : value (number width n) = n := by
  induction width generalizing n with
  | zero =>
    have hn : n = 0 := by simpa using h
    rw [hn]
    rfl
  | succ width ih =>
    have hdiv : n / 256 < 256 ^ width := by
      rw [Nat.div_lt_iff_lt_mul (by decide), ← Nat.pow_succ]
      exact h
    have hlow : (UInt8.ofNat n).toNat = n % 256 := UInt8.toNat_ofNat'
    rw [number, value, hlow, ih hdiv]
    omega

theorem number_value (bs : Octets) : number bs.length (value bs) = bs := by
  induction bs with
  | nil => rfl
  | cons b bs ih =>
    have hb : b.toNat < 256 := b.toNat_lt
    have hdiv : (b.toNat + 256 * value bs) / 256 = value bs := by omega
    have hlow : UInt8.ofNat (b.toNat + 256 * value bs) = b := by
      apply UInt8.toNat_inj.1
      rw [UInt8.toNat_ofNat']
      omega
    rw [List.length_cons, value, number, hdiv, ih, hlow]

theorem value_lt (bs : Octets) : value bs < 256 ^ bs.length := by
  induction bs with
  | nil => simp [value]
  | cons b bs ih =>
    have hb : b.toNat < 256 := b.toNat_lt
    rw [value, List.length_cons, Nat.pow_succ]
    omega

theorem splitExact_append (bs rest : Octets) :
    splitExact bs.length (bs ++ rest) = some (bs, rest) := by
  induction bs with
  | nil => rfl
  | cons b bs ih => simp [splitExact, ih]

theorem eq_of_splitExact {n : Nat} {bs taken rest : Octets}
    (h : splitExact n bs = some (taken, rest)) : bs = taken ++ rest ∧ taken.length = n := by
  induction n generalizing bs taken with
  | zero =>
    cases h
    exact ⟨rfl, rfl⟩
  | succ n ih =>
    cases bs with
    | nil => cases h
    | cons b bs =>
      obtain ⟨⟨taken', rest'⟩, hsplit, heq⟩ := Option.map_eq_some_iff.1 h
      cases heq
      obtain ⟨rfl, rfl⟩ := ih hsplit
      exact ⟨rfl, rfl⟩

theorem readOctets_append {n : Nat} {bs : Octets} (h : bs.length = n) (rest : Octets) :
    readOctets n (bs ++ rest) = .ok (bs, rest) := by
  rw [readOctets, ← h, splitExact_append]

theorem eq_of_readOctets {n : Nat} {bs taken rest : Octets}
    (h : readOctets n bs = .ok (taken, rest)) : bs = taken ++ rest ∧ taken.length = n := by
  unfold readOctets at h
  split at h
  · next r hsplit =>
    cases h
    exact eq_of_splitExact hsplit
  · cases h

theorem readOctets_prolongs (n : Nat) : (readOctets n).Prolongs (readOctets n) := by
  refine fun bs more => ⟨fun taken rest h => ?_, fun e h he => ?_⟩
  · obtain ⟨rfl, hlength⟩ := eq_of_readOctets h
    rw [List.append_assoc]
    exact readOctets_append hlength _
  · unfold readOctets at h
    split at h
    · cases h
    · cases h
      exact absurd rfl he

theorem readNumber_inverts (width : Nat) :
    (readNumber width).Inverts (number width) fun n => n < 256 ^ width := by
  intro n hn rest
  have hread := readOctets_append (length_number width n) rest
  rw [readNumber, Decoder.map_ok hread, value_number hn]

theorem readNumber_exact (width : Nat) :
    (readNumber width).Exact (number width) fun n => n < 256 ^ width := by
  intro bs n rest h
  obtain ⟨taken, hread, rfl⟩ := Decoder.map_eq_ok h
  obtain ⟨rfl, rfl⟩ := eq_of_readOctets hread
  exact ⟨by rw [number_value], value_lt taken⟩

theorem readNumber_prolongs (width : Nat) : (readNumber width).Prolongs (readNumber width) :=
  (readOctets_prolongs width).map value

/-- The index of an alternative, and the alternative after it. -/
theorem readChoice_inverts {α : Type} {count i : Nat} {f : Nat → Decoder α} {bs rest : Octets}
    {a : α} (h : i < count) (small : i < 256) (hf : f i bs = .ok (a, rest)) :
    (readChoice count).bind f (choice i ++ bs) = .ok (a, rest) := by
  have hi : i < 256 ^ 4 := Nat.lt_trans small (by decide)
  have hchoice : readChoice count (choice i ++ bs) = .ok (i, bs) := by
    rw [readChoice, choice, Decoder.bind_ok (readNumber_inverts 4 i hi bs), if_pos h]
    rfl
  rw [Decoder.bind_ok hchoice, hf]

/-- What follows the index of an alternative. -/
theorem of_readChoice {α : Type} {count : Nat} {f : Nat → Decoder α} {bs rest : Octets} {a : α}
    (h : (readChoice count).bind f bs = .ok (a, rest)) :
    ∃ i rest', i < count ∧ bs = choice i ++ rest' ∧ f i rest' = .ok (a, rest) := by
  obtain ⟨i, rest', hchoice, hf⟩ := Decoder.bind_eq_ok h
  obtain ⟨j, rest'', hnumber, hcheck⟩ := Decoder.bind_eq_ok hchoice
  obtain ⟨hbs, -⟩ := readNumber_exact 4 _ _ _ hnumber
  split at hcheck
  · next hlt =>
    cases hcheck
    exact ⟨_, _, hlt, hbs, hf⟩
  · cases hcheck

theorem readChoice_prolongs (count : Nat) : (readChoice count).Prolongs (readChoice count) := by
  refine (readNumber_prolongs 4).bind fun i => ?_
  split
  · exact Decoder.prolongs_pure i
  · exact Decoder.prolongs_fail _

/-! ### Texts and truth values -/

theorem encode_of_decode {bytes : Octets} {s : String} (h : Text.decode bytes = .ok s) :
    Text.encode s = bytes := by
  unfold Text.decode at h
  split at h
  · next t ht =>
    cases h
    simp only [String.fromUTF8?, Option.dite_none_right_eq_some, Option.some.injEq] at ht
    obtain ⟨hvalid, rfl⟩ := ht
    rfl
  · cases h

theorem readText_inverts : readText.Inverts text Text.Storable := by
  intro s hs rest
  have hsize := readNumber_inverts 8 _ hs (Text.encode s ++ rest)
  have hbytes : readOctets (Text.encode s).length (Text.encode s ++ rest) = _ :=
    readOctets_append rfl rest
  rw [text, List.append_assoc, readText, readSize, size, Decoder.bind_ok hsize,
    Decoder.bind_ok hbytes, Text.decode_encode]
  rfl

theorem readText_exact : readText.Exact text Text.Storable := by
  intro bs s rest h
  obtain ⟨n, rest₁, hsize, hread⟩ := Decoder.bind_eq_ok h
  obtain ⟨bytes, rest₂, hbytes, hspell⟩ := Decoder.bind_eq_ok hread
  obtain ⟨rfl, hn⟩ := readNumber_exact 8 _ _ _ hsize
  obtain ⟨rfl, rfl⟩ := eq_of_readOctets hbytes
  cases hdecode : Text.decode bytes with
  | ok t =>
    rw [hdecode] at hspell
    cases hspell
    have hencode := encode_of_decode hdecode
    refine ⟨?_, ?_⟩
    · rw [text, hencode, List.append_assoc]
      rfl
    · rw [Text.Storable, hencode]
      exact hn
  | error f =>
    rw [hdecode] at hspell
    cases hspell

theorem readText_prolongs : readText.Prolongs readText := by
  refine (readNumber_prolongs 8).bind fun n => (readOctets_prolongs n).bind fun bytes => ?_
  split
  · exact Decoder.prolongs_pure _
  · exact Decoder.prolongs_fail _

theorem readTruth_inverts : readTruth.Inverts truth fun _ => True := by
  intro b _ rest
  cases b <;> rfl

theorem readTruth_exact : readTruth.Exact truth fun _ => True := by
  intro bs b rest h
  obtain ⟨octet, rest', hoctet, hcheck⟩ := Decoder.bind_eq_ok h
  obtain ⟨rfl, -⟩ := readNumber_exact 1 _ _ _ hoctet
  refine ⟨?_, trivial⟩
  split at hcheck
  · next hzero =>
    cases hcheck
    rw [hzero]
    rfl
  · split at hcheck
    · next hone =>
      cases hcheck
      rw [hone]
      rfl
    · cases hcheck

theorem readTruth_prolongs : readTruth.Prolongs readTruth := by
  refine (readNumber_prolongs 1).bind fun octet => ?_
  split
  · exact Decoder.prolongs_pure _
  · split
    · exact Decoder.prolongs_pure _
    · exact Decoder.prolongs_fail _

/-! ### Lists -/

section Lists

variable {α : Type} {p q : Decoder α} {write : α → Octets} {S : α → Prop}

theorem readMany_inverts {as : List α} (h : ∀ a ∈ as, ∀ rest, p (write a ++ rest) = .ok (a, rest))
    (rest : Octets) : readMany p as.length (as.flatMap write ++ rest) = .ok (as, rest) := by
  induction as with
  | nil => rfl
  | cons a as ih =>
    have hfirst := h a (.head _) (as.flatMap write ++ rest)
    have hothers := ih fun b hb => h b (.tail _ hb)
    rw [List.flatMap_cons, List.append_assoc, List.length_cons, readMany,
      Decoder.bind_ok hfirst, Decoder.map_ok hothers]

theorem readMany_exact (hp : p.Exact write S) {n : Nat} {bs rest : Octets} {as : List α}
    (h : readMany p n bs = .ok (as, rest)) :
    bs = as.flatMap write ++ rest ∧ as.length = n ∧ ∀ a ∈ as, S a := by
  induction n generalizing bs as with
  | zero =>
    cases h
    exact ⟨rfl, rfl, by simp⟩
  | succ n ih =>
    obtain ⟨a, rest', hfirst, h⟩ := Decoder.bind_eq_ok h
    obtain ⟨as', hothers, rfl⟩ := Decoder.map_eq_ok h
    obtain ⟨rfl, ha⟩ := hp _ _ _ hfirst
    obtain ⟨rfl, rfl, has⟩ := ih hothers
    refine ⟨?_, rfl, List.forall_mem_cons.2 ⟨ha, has⟩⟩
    rw [List.flatMap_cons, List.append_assoc]

theorem readMany_prolongs (hp : p.Prolongs q) (n : Nat) :
    (readMany p n).Prolongs (readMany q n) := by
  induction n with
  | zero => exact Decoder.prolongs_pure []
  | succ n ih => exact hp.bind fun a => ih.map fun as => a :: as

theorem readList_inverts {as : List α} (hlength : as.length < sizeLimit)
    (h : ∀ a ∈ as, ∀ rest, p (write a ++ rest) = .ok (a, rest)) (rest : Octets) :
    readList p (size as.length ++ (as.flatMap write ++ rest)) = .ok (as, rest) := by
  rw [readList, readSize, size, Decoder.bind_ok (readNumber_inverts 8 _ hlength _)]
  exact readMany_inverts h rest

theorem readList_exact (hp : p.Exact write S) :
    (readList p).Exact (fun as => size as.length ++ as.flatMap write) fun as =>
      as.length < sizeLimit ∧ ∀ a ∈ as, S a := by
  intro bs as rest h
  obtain ⟨n, rest', hsize, hmany⟩ := Decoder.bind_eq_ok h
  obtain ⟨rfl, hn⟩ := readNumber_exact 8 _ _ _ hsize
  obtain ⟨rfl, rfl, has⟩ := readMany_exact hp hmany
  exact ⟨by rw [List.append_assoc, size], hn, has⟩

theorem readList_prolongs (hp : p.Prolongs q) : (readList p).Prolongs (readList q) :=
  (readNumber_prolongs 8).bind fun n => readMany_prolongs hp n

end Lists

theorem readTexts_inverts : (readList readText).Inverts texts Text.AllStorable := by
  intro ss hss rest
  rw [texts, List.append_assoc]
  exact readList_inverts hss.1 (fun s hs => readText_inverts s (hss.2 s hs)) rest

theorem readTexts_exact : (readList readText).Exact texts Text.AllStorable :=
  readList_exact readText_exact

/-! ### Literals, constructs and kinds of nodes -/

theorem readLiteral_inverts : readLiteral.Inverts literal Literal.Storable := by
  intro v hv rest
  cases v with
  | int n =>
    have hn := readNumber_inverts 8 n.toUInt64.toNat n.toUInt64.toNat_lt rest
    have hword : (UInt64.ofNat n.toUInt64.toNat).toInt64 = n := by
      rw [UInt64.ofNat_toNat]
      rfl
    rw [literal, List.append_assoc]
    refine readChoice_inverts (by decide) (by decide) ?_
    exact (Decoder.map_ok hn).trans (by rw [hword])
  | float bits =>
    have hbits := readNumber_inverts 8 bits.toNat bits.toNat_lt rest
    rw [literal, List.append_assoc]
    refine readChoice_inverts (by decide) (by decide) ?_
    exact (Decoder.map_ok hbits).trans (by rw [UInt64.ofNat_toNat])
  | text s =>
    rw [literal, List.append_assoc]
    exact readChoice_inverts (by decide) (by decide) (Decoder.map_ok (readText_inverts s hv rest))
  | bool b =>
    rw [literal, List.append_assoc]
    exact readChoice_inverts (by decide) (by decide)
      (Decoder.map_ok (readTruth_inverts b trivial rest))
  | nothing =>
    exact readChoice_inverts (by decide) (by decide) rfl

theorem readLiteral_exact : readLiteral.Exact literal Literal.Storable := by
  intro bs v rest h
  obtain ⟨i, rest', hi, hbs, hread⟩ := of_readChoice h
  clear h
  subst hbs
  match i, hi with
  | 0, _ =>
    obtain ⟨n, rfl, rfl, hn⟩ := (readNumber_exact 8).of_map hread
    have hword : (UInt64.ofNat n).toInt64.toUInt64.toNat = n := UInt64.toNat_ofNat_of_lt' hn
    exact ⟨by rw [literal, hword, List.append_assoc], trivial⟩
  | 1, _ =>
    obtain ⟨n, rfl, rfl, hn⟩ := (readNumber_exact 8).of_map hread
    have hword : (UInt64.ofNat n).toNat = n := UInt64.toNat_ofNat_of_lt' hn
    exact ⟨by rw [literal, hword, List.append_assoc], trivial⟩
  | 2, _ =>
    obtain ⟨s, rfl, rfl, hs⟩ := readText_exact.of_map hread
    exact ⟨by rw [literal, List.append_assoc], hs⟩
  | 3, _ =>
    obtain ⟨b, rfl, rfl, -⟩ := readTruth_exact.of_map hread
    exact ⟨by rw [literal, List.append_assoc], trivial⟩
  | 4, _ =>
    cases hread
    exact ⟨rfl, trivial⟩

theorem readLiteral_prolongs : readLiteral.Prolongs readLiteral := by
  refine (readChoice_prolongs 5).bind fun i => ?_
  split
  · exact (readNumber_prolongs 8).map _
  · exact (readNumber_prolongs 8).map _
  · exact readText_prolongs.map _
  · exact readTruth_prolongs.map _
  · exact Decoder.prolongs_pure _

theorem readInclusion_inverts : readInclusion.Inverts inclusion Inclusion.Storable := by
  intro what hwhat rest
  cases what with
  | library name =>
    rw [inclusion, List.append_assoc]
    exact readChoice_inverts (by decide) (by decide)
      (Decoder.map_ok (readText_inverts name hwhat rest))
  | script path =>
    rw [inclusion, List.append_assoc]
    exact readChoice_inverts (by decide) (by decide)
      (Decoder.map_ok (readText_inverts path hwhat rest))

theorem readInclusion_exact : readInclusion.Exact inclusion Inclusion.Storable := by
  intro bs what rest h
  obtain ⟨i, rest', hi, hbs, hread⟩ := of_readChoice h
  clear h
  subst hbs
  match i, hi with
  | 0, _ =>
    obtain ⟨name, rfl, rfl, hname⟩ := readText_exact.of_map hread
    exact ⟨by rw [inclusion, List.append_assoc], hname⟩
  | 1, _ =>
    obtain ⟨path, rfl, rfl, hpath⟩ := readText_exact.of_map hread
    exact ⟨by rw [inclusion, List.append_assoc], hpath⟩

theorem readInclusion_prolongs : readInclusion.Prolongs readInclusion := by
  refine (readChoice_prolongs 2).bind fun i => ?_
  split
  · exact readText_prolongs.map _
  · exact readText_prolongs.map _

/-- A name and parameters after it. -/
theorem readSignature_inverts {name : String} {params : List String}
    (f : String → List String → Control) (hname : Text.Storable name)
    (hparams : Text.AllStorable params) (rest : Octets) :
    (readText.bind fun name => (readList readText).map (f name))
      (text name ++ (texts params ++ rest)) = .ok (f name params, rest) := by
  rw [Decoder.bind_ok (readText_inverts name hname _)]
  exact Decoder.map_ok (readTexts_inverts params hparams rest)

theorem readSignature_exact {f : String → List String → Control} {bs rest : Octets} {c : Control}
    (h : (readText.bind fun name => (readList readText).map (f name)) bs = .ok (c, rest)) :
    ∃ name params, c = f name params ∧ bs = text name ++ (texts params ++ rest) ∧
      Text.Storable name ∧ Text.AllStorable params := by
  obtain ⟨name, rest', hname, hparams⟩ := Decoder.bind_eq_ok h
  obtain ⟨hbs, hs⟩ := readText_exact _ _ _ hname
  obtain ⟨params, hc, hrest, hall⟩ := readTexts_exact.of_map hparams
  exact ⟨name, params, hc, by rw [hbs, hrest], hs, hall⟩

theorem readControl_inverts : readControl.Inverts control Control.Storable := by
  intro c hc rest
  cases c with
  | branch fallback =>
    rw [control, List.append_assoc]
    exact readChoice_inverts (by decide) (by decide)
      (Decoder.map_ok (readTruth_inverts fallback trivial rest))
  | forLoop counter =>
    rw [control, List.append_assoc]
    exact readChoice_inverts (by decide) (by decide)
      (Decoder.map_ok (readText_inverts counter hc rest))
  | subroutine name params =>
    rw [control, List.append_assoc, List.append_assoc]
    exact readChoice_inverts (by decide) (by decide)
      (readSignature_inverts .subroutine hc.1 hc.2 rest)
  | function name params =>
    rw [control, List.append_assoc, List.append_assoc]
    exact readChoice_inverts (by decide) (by decide)
      (readSignature_inverts .function hc.1 hc.2 rest)
  | inclusion what =>
    rw [control, List.append_assoc]
    exact readChoice_inverts (by decide) (by decide)
      (Decoder.map_ok (readInclusion_inverts what hc rest))
  | _ =>
    exact readChoice_inverts (by decide) (by decide) rfl

theorem readControl_exact : readControl.Exact control Control.Storable := by
  intro bs c rest h
  obtain ⟨i, rest', hi, hbs, hread⟩ := of_readChoice h
  clear h
  subst hbs
  match i, hi with
  | 3, _ =>
    obtain ⟨fallback, rfl, rfl, -⟩ := readTruth_exact.of_map hread
    exact ⟨by rw [control, List.append_assoc], trivial⟩
  | 6, _ =>
    obtain ⟨counter, rfl, rfl, hs⟩ := readText_exact.of_map hread
    exact ⟨by rw [control, List.append_assoc], hs⟩
  | 7, _ =>
    obtain ⟨name, params, rfl, rfl, hs⟩ := readSignature_exact hread
    exact ⟨by simp only [control, List.append_assoc], hs⟩
  | 8, _ =>
    obtain ⟨name, params, rfl, rfl, hs⟩ := readSignature_exact hread
    exact ⟨by simp only [control, List.append_assoc], hs⟩
  | 12, _ =>
    obtain ⟨what, rfl, rfl, hs⟩ := readInclusion_exact.of_map hread
    exact ⟨by rw [control, List.append_assoc], hs⟩
  | 0, _ | 1, _ | 2, _ | 4, _ | 5, _ | 9, _ | 10, _ | 11, _ =>
    cases hread
    exact ⟨rfl, trivial⟩

theorem readControl_prolongs : readControl.Prolongs readControl := by
  have signature (f : String → List String → Control) :
      (readText.bind fun name => (readList readText).map (f name)).Prolongs
        (readText.bind fun name => (readList readText).map (f name)) :=
    readText_prolongs.bind fun name => (readList_prolongs readText_prolongs).map (f name)
  refine (readChoice_prolongs 13).bind fun i => ?_
  split
  case h_4 => exact readTruth_prolongs.map _
  case h_7 => exact readText_prolongs.map _
  case h_8 => exact signature .subroutine
  case h_9 => exact signature .function
  case h_13 => exact readInclusion_prolongs.map _
  all_goals exact Decoder.prolongs_pure _

theorem readKind_inverts : readKind.Inverts kind NodeKind.Storable := by
  intro k hk rest
  cases k with
  | control c =>
    rw [kind, List.append_assoc]
    exact readChoice_inverts (by decide) (by decide)
      (Decoder.map_ok (readControl_inverts c hk rest))
  | call target =>
    rw [kind, List.append_assoc]
    exact readChoice_inverts (by decide) (by decide)
      (Decoder.map_ok (readText_inverts target hk rest))
  | name s =>
    rw [kind, List.append_assoc]
    exact readChoice_inverts (by decide) (by decide) (Decoder.map_ok (readText_inverts s hk rest))
  | literal v =>
    rw [kind, List.append_assoc]
    exact readChoice_inverts (by decide) (by decide)
      (Decoder.map_ok (readLiteral_inverts v hk rest))
  | array =>
    exact readChoice_inverts (by decide) (by decide) rfl

theorem readKind_exact : readKind.Exact kind NodeKind.Storable := by
  intro bs k rest h
  obtain ⟨i, rest', hi, hbs, hread⟩ := of_readChoice h
  clear h
  subst hbs
  match i, hi with
  | 0, _ =>
    obtain ⟨c, rfl, rfl, hc⟩ := readControl_exact.of_map hread
    exact ⟨by rw [kind, List.append_assoc], hc⟩
  | 1, _ =>
    obtain ⟨target, rfl, rfl, hs⟩ := readText_exact.of_map hread
    exact ⟨by rw [kind, List.append_assoc], hs⟩
  | 2, _ =>
    obtain ⟨s, rfl, rfl, hs⟩ := readText_exact.of_map hread
    exact ⟨by rw [kind, List.append_assoc], hs⟩
  | 3, _ =>
    obtain ⟨v, rfl, rfl, hv⟩ := readLiteral_exact.of_map hread
    exact ⟨by rw [kind, List.append_assoc], hv⟩
  | 4, _ =>
    cases hread
    exact ⟨rfl, trivial⟩

theorem readKind_prolongs : readKind.Prolongs readKind := by
  refine (readChoice_prolongs 5).bind fun i => ?_
  split
  · exact readControl_prolongs.map _
  · exact readText_prolongs.map _
  · exact readText_prolongs.map _
  · exact readLiteral_prolongs.map _
  · exact Decoder.prolongs_pure _

theorem readBodyIndex_inverts : readBodyIndex.Inverts bodyIndex fun _ => True := by
  intro b _ rest
  cases b with
  | none => rfl
  | some i =>
    have hsize := readNumber_inverts 8 i.toNat i.toNat_lt rest
    have hone : readOctet (1 :: (size i.toNat ++ rest)) = .ok (1, size i.toNat ++ rest) := rfl
    rw [bodyIndex, List.cons_append, readBodyIndex, Decoder.bind_ok hone, if_neg (by decide),
      if_pos rfl, readSize, size, Decoder.map_ok hsize, UInt64.ofNat_toNat]

theorem readBodyIndex_exact : readBodyIndex.Exact bodyIndex fun _ => True := by
  intro bs b rest h
  obtain ⟨octet, rest', hoctet, hcheck⟩ := Decoder.bind_eq_ok h
  obtain ⟨rfl, -⟩ := readNumber_exact 1 _ _ _ hoctet
  refine ⟨?_, trivial⟩
  split at hcheck
  · next hzero =>
    cases hcheck
    rw [hzero]
    rfl
  · split at hcheck
    · next hone =>
      obtain ⟨n, rfl, rfl, hn⟩ := (readNumber_exact 8).of_map hcheck
      have hword : (UInt64.ofNat n).toNat = n := UInt64.toNat_ofNat_of_lt' hn
      rw [hone, bodyIndex, hword]
      rfl
    · cases hcheck

theorem readBodyIndex_prolongs : readBodyIndex.Prolongs readBodyIndex := by
  refine (readNumber_prolongs 1).bind fun octet => ?_
  split
  · exact Decoder.prolongs_pure _
  · split
    · exact (readNumber_prolongs 8).map _
    · exact Decoder.prolongs_fail _

end Image
end LineBasic

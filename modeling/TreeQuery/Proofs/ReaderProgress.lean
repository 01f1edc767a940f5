import TreeQuery.Proofs.CompoundParsing
import TreeQuery.Proofs.ByteNesting

/-!
# Every production reads forward

Every production but the links reads at least one character and ends on a character
boundary, so the two loops of the reader never stop for want of progress.
-/

namespace TreeQuery.Selector

/-- The rest after a production that read at least one character: a shorter suffix of the
input. -/
def Advances (input rest : List Char) : Prop := rest <:+ input ∧ rest.length < input.length

section Suffixes

variable {eb : Char → Bool}

theorem ArgAt.isSuffix {input rest : List Char} {arg : Option String} (h : ArgAt input arg rest) :
    rest <:+ input := by
  cases h with
  | none => exact List.suffix_refl _
  | some hn =>
    obtain ⟨r, hr, hcs, -⟩ := nested_frame hn
    cases hr
    rw [hcs]
    exact (List.suffix_cons _ _).trans ((List.suffix_append _ _).trans (List.suffix_cons _ _))

theorem AttributeAt.isSuffix {input rest : List Char} {p : Part} (h : AttributeAt eb input p rest) :
    rest <:+ input := by
  cases h with
  | mk _ => exact ((List.suffix_cons _ _).trans (List.suffix_append _ _)).trans (List.suffix_cons _ _)

theorem PseudoAt.isSuffix {input rest : List Char} {p : Part} (h : PseudoAt eb input p rest) :
    rest <:+ input := by
  cases h with
  | builtin q hi ha => exact ha.isSuffix.trans (hi.isSuffix.trans (List.suffix_cons _ _))
  | custom hi ha => exact ha.isSuffix.trans (hi.isSuffix.trans (List.suffix_cons _ _))
  | element hi ha =>
    exact ha.isSuffix.trans (hi.isSuffix.trans ((List.suffix_cons _ _).trans (List.suffix_cons _ _)))

theorem SpecialAt.isSuffix {input rest : List Char} {p : Part} (h : SpecialAt eb input p rest) :
    rest <:+ input := by
  cases h with
  | idName h => exact h.isSuffix.trans (List.suffix_cons _ _)
  | className h => exact h.isSuffix.trans (List.suffix_cons _ _)
  | attr h => exact h.isSuffix
  | pseudo h => exact h.isSuffix

theorem SpecialsAt.isSuffix {input rest : List Char} {ps : List Part}
    (h : SpecialsAt eb input ps rest) : rest <:+ input := by
  induction h with
  | nil => exact List.suffix_refl _
  | cons hs _ ih => exact ih.trans hs.isSuffix

theorem TypeAt.isSuffix {input rest : List Char} {p : Part} (h : TypeAt eb input p rest) :
    rest <:+ input := by
  cases h with
  | universal => exact List.suffix_cons _ _
  | typeName h => exact h.isSuffix

theorem SequenceAt.isSuffix {input rest : List Char} {parts : List Part}
    (h : SequenceAt eb input parts rest) : rest <:+ input := by
  cases h with
  | typed marked ht hs => exact hs.isSuffix.trans (ht.isSuffix.trans (List.suffix_append _ _))
  | untyped marked hs _ => exact hs.isSuffix.trans (List.suffix_append _ _)

theorem LinksAt.isSuffix {input rest : List Char} {parts : List Part}
    (h : LinksAt eb input parts rest) : rest <:+ input := by
  induction h with
  | nil => exact List.suffix_refl _
  | link hc hs _ ih => exact ih.trans (hs.isSuffix.trans hc.isSuffix)

end Suffixes

theorem CombinatorAt.length_lt {input rest : List Char} {joint : List Part}
    (h : CombinatorAt input joint rest) : rest.length < input.length := by
  cases h with
  | symbol marked hs h₀ h₁ =>
    have h₀' := h₀.length_le
    have h₁' := h₁.length_le
    simp only [List.length_cons] at h₀'
    cases marked <;> simp [markText] <;> omega
  | descendant marked hb h =>
    have := h.length_le
    cases marked <;> simp [markText] <;> omega

theorem nameUnit_suffix {accept : Char → Bool} {cs rest : List Char} {c : Char}
    (h : nameUnit accept cs = some (c, rest)) : rest <:+ cs := by
  unfold nameUnit at h
  split at h
  · cases h
  · split at h
    · exact escape_suffix h
    · split at h
      · cases h
        exact List.suffix_cons _ _
      · cases h

theorem advances_cons {c : Char} {cs : List Char} : Advances (c :: cs) cs :=
  ⟨List.suffix_cons _ _, Nat.lt_succ_self _⟩

theorem Advances.of_suffix {cs ys r : List Char} (h : Advances ys r) (hs : ys <:+ cs) : Advances cs r :=
  ⟨h.1.trans hs, Nat.lt_of_lt_of_le h.2 hs.length_le⟩

theorem Advances.to_suffix {cs r r' : List Char} (h : Advances cs r) (hs : r' <:+ r) : Advances cs r' :=
  ⟨hs.trans h.1, Nat.lt_of_le_of_lt hs.length_le h.2⟩

theorem escape_advances {cs rest : List Char} {c : Char} (h : escape cs = some (c, rest)) :
    Advances cs rest :=
  ⟨escape_suffix h, by have := escape_shorter h; omega⟩

theorem skipQuoted_advances {q : Char} {cs rest : List Char} (h : skipQuoted q cs = some rest) :
    Advances cs rest :=
  ⟨skipQuoted_suffix h, skipQuoted_shorter h⟩

theorem identifier_advances {cs rest : List Char} {s : String} (h : identifier cs = some (s, rest)) :
    Advances cs rest :=
  ⟨identifier_suffix h, (identifier_eq_some_iff.mp h).length_lt⟩

theorem name_advances {cs rest : List Char} {s : String} (h : name cs = some (s, rest)) :
    Advances cs rest :=
  ⟨name_suffix h, (name_eq_some_iff.mp h).length_lt⟩

theorem quoted_advances {cs rest : List Char} {s : String} (h : quoted cs = some (s, rest)) :
    Advances cs rest := by
  refine ⟨quoted_suffix h, ?_⟩
  cases quoted_eq_some_iff.mp h with
  | mk _ hb =>
    have := hb.isSuffix.length_le
    simp only [List.length_cons]
    omega

theorem typePart_advances {cs rest : List Char} {p : Part} (h : typePart cs = some (p, rest)) :
    Advances cs rest :=
  ⟨(typeAt_of_typePart h).isSuffix, (typeAt_of_typePart h).length_lt⟩

theorem prefixedPart_advances {size : Nat} {isId : Bool} {cs rest : List Char} {f : Failure}
    {p : Part} (h : (prefixedPart size isId cs f).1 = some (p, rest)) : Advances cs rest := by
  -- what follows the prefix character is read as a name or an identifier
  unfold prefixedPart at h
  cases isId with
  | true =>
    simp only [if_true] at h
    split at h
    · rename_i ident r hr
      simp only [Option.some.injEq, Prod.mk.injEq] at h
      obtain ⟨-, rfl⟩ := h
      exact (name_advances hr).of_suffix (List.drop_suffix 1 cs)
    · cases h
  | false =>
    simp only [Bool.false_eq_true, if_false] at h
    split at h
    · rename_i ident r hr
      simp only [Option.some.injEq, Prod.mk.injEq] at h
      obtain ⟨-, rfl⟩ := h
      exact (identifier_advances hr).of_suffix (List.drop_suffix 1 cs)
    · cases h

theorem attributePart_advances {size : Nat} {cs rest : List Char} {f : Failure} {p : Part}
    (h : (attributePart size cs f).1 = some (p, rest)) : Advances cs rest := by
  unfold attributePart at h
  split at h
  · cases h
  rename_i inner r hn
  split at h
  · simp only [Option.some.injEq, Prod.mk.injEq] at h
    obtain ⟨-, rfl⟩ := h
    -- the body scan stops on the closing bracket, which is read too
    have hr := nested_suffix hn
    obtain ⟨r', rfl, -, -⟩ := nested_frame hn
    exact advances_cons.of_suffix (hr.trans (List.drop_suffix 1 cs))
  · cases h

theorem pseudoPart_advances {size : Nat} {cs rest : List Char} {f : Failure} {p : Part}
    (h : (pseudoPart size cs f).1 = some (p, rest)) : Advances cs rest := by
  unfold pseudoPart at h
  split at h
  rename_i element body hcolons
  have hbody : body <:+ cs.drop 1 := by
    split at hcolons
    · rename_i r hr
      cases hcolons
      rw [hr]
      exact List.suffix_cons _ _
    · cases hcolons
      exact List.suffix_refl _
  dsimp only at h
  split at h
  · cases h
  rename_i written r₁ hid
  split at h
  · cases h
  rename_i arg r₄ hargument
  have hr₄ : r₄ <:+ r₁ := by
    split at hargument
    · rename_i r₂
      obtain ⟨⟨text, r₃⟩, hn, heq⟩ := Option.map_eq_some_iff.mp hargument
      cases heq
      exact (List.drop_suffix 1 r₃).trans ((nested_suffix hn).trans (List.suffix_cons _ _))
    · cases hargument
      exact List.suffix_refl _
  have hadv : Advances cs r₄ :=
    ((identifier_advances hid).of_suffix (hbody.trans (List.drop_suffix 1 cs))).to_suffix hr₄
  split at h
  · cases h
    exact hadv
  · split at h
    · cases h
      exact hadv
    · cases h

theorem specialPart_advances {size : Nat} {cs rest : List Char} {f : Failure} {p : Part}
    (h : (specialPart size cs f).1 = some (p, rest)) : Advances cs rest :=
  ⟨(specialAt_of_specialPart h).isSuffix, (specialAt_of_specialPart h).length_lt⟩

theorem sequence_advances {size : Nat} {cs rest : List Char} {f : Failure} {ps : List Part}
    (h : (sequence size cs f).1 = some (ps, rest)) : Advances cs rest :=
  ⟨(sequenceAt_of_sequence h).isSuffix, (sequenceAt_of_sequence h).length_lt⟩

theorem combinatorParts_advances {cs rest : List Char} {joint : List Part}
    (h : combinatorParts cs = some (joint, rest)) : Advances cs rest :=
  ⟨(combinatorAt_of_combinatorParts h).isSuffix, (combinatorAt_of_combinatorParts h).length_lt⟩

theorem links_suffix (size : Nat) (cs : List Char) (f : Failure) : (links size cs f).2.1 <:+ cs :=
  (linksAt_links size cs f).isSuffix

theorem specialParts_of_specialPart {size : Nat} {cs rest : List Char} {f f' : Failure} {p : Part}
    (h : specialPart size cs f = (some (p, rest), f')) :
    specialParts size cs f = (p :: (specialParts size rest f').1, (specialParts size rest f').2) := by
  have hlt := (specialPart_advances (by rw [h])).2
  rw [specialParts, h]
  simp only [if_pos hlt]

theorem links_of_sequence {size : Nat} {cs r rest : List Char} {f f' : Failure}
    {joint parts : List Part} (hc : combinatorParts cs = some (joint, r))
    (hs : sequence size r f = (some (parts, rest), f')) :
    links size cs f = (joint ++ parts ++ (links size rest f').1, (links size rest f').2) := by
  have h₁ := (combinatorParts_advances hc).2
  have h₂ := (sequence_advances (by rw [hs])).2
  rw [links, hc]
  simp only [hs, if_pos (Nat.lt_trans h₂ h₁)]

theorem links_of_no_sequence {size : Nat} {cs r : List Char} {f : Failure} {joint : List Part}
    (hc : combinatorParts cs = some (joint, r)) (hs : (sequence size r f).1 = none) :
    links size cs f = ([], cs, (sequence size r f).2) := by
  rw [links, hc]
  dsimp only
  generalize sequence size r f = q at hs ⊢
  obtain ⟨o, f'⟩ := q
  simp only at hs
  subst hs
  rfl

/-- The argument of a pseudo-class part is a piece of `input`, shorter than it. -/
def ArgIn (input : List Char) (p : Part) : Prop :=
  p.kind = .pseudoClass → ∀ a, p.arg = some a → a.toList <:+: input ∧ a.length < input.length

theorem ArgIn.mono {input input' : List Char} {p : Part} (h : ArgIn input p)
    (hs : input <:+ input') : ArgIn input' p := by
  intro hk a ha
  obtain ⟨hi, hl⟩ := h hk a ha
  exact ⟨hi.trans hs.isInfix, Nat.lt_of_lt_of_le hl hs.length_le⟩

theorem ArgIn.of_kind {input : List Char} {p : Part} (h : p.kind = .pseudoClass → False) :
    ArgIn input p :=
  fun hk => absurd hk h

section Arguments

variable {eb : Char → Bool}

theorem ArgAt.piece {input rest : List Char} {arg : Option String} (h : ArgAt input arg rest) :
    ∀ a, arg = Option.some a → a.toList <:+: input ∧ a.length < input.length := by
  cases h with
  | none => exact fun a ha => by cases ha
  | some hn =>
    intro a ha
    cases ha
    obtain ⟨r, hr, hcs, -⟩ := nested_frame hn
    cases hr
    rw [hcs]
    refine ⟨⟨['('], ')' :: rest, by simp⟩, ?_⟩
    simp only [List.length_cons, List.length_append, String.length_toList]
    omega

theorem PseudoAt.argIn {input rest : List Char} {p : Part} (h : PseudoAt eb input p rest) :
    ArgIn input p := by
  cases h with
  | builtin q hi ha => exact ArgIn.mono (fun _ => ha.piece) (hi.isSuffix.trans (List.suffix_cons _ _))
  | custom hi ha => exact ArgIn.mono (fun _ => ha.piece) (hi.isSuffix.trans (List.suffix_cons _ _))
  | element => exact ArgIn.of_kind nofun

theorem SpecialAt.argIn {input rest : List Char} {p : Part} (h : SpecialAt eb input p rest) :
    ArgIn input p := by
  cases h with
  | idName => exact ArgIn.of_kind nofun
  | className => exact ArgIn.of_kind nofun
  | attr h =>
    obtain ⟨hb⟩ := h
    cases hb <;> exact ArgIn.of_kind nofun
  | pseudo h => exact h.argIn

theorem SpecialsAt.argIn {input rest : List Char} {ps : List Part} (h : SpecialsAt eb input ps rest) :
    ∀ p ∈ ps, ArgIn input p := by
  induction h with
  | nil => simp
  | cons hs _ ih =>
    intro q hq
    rcases List.mem_cons.mp hq with rfl | hq
    · exact hs.argIn
    · exact (ih q hq).mono hs.isSuffix

theorem markerIf_argIn (input : List Char) (marked : Bool) : ∀ p ∈ markerIf marked, ArgIn input p := by
  intro p hp
  cases marked with
  | false => cases hp
  | true =>
    rw [markerIf_true, List.mem_singleton] at hp
    subst hp
    exact ArgIn.of_kind nofun

theorem SequenceAt.argIn {input rest : List Char} {parts : List Part}
    (h : SequenceAt eb input parts rest) : ∀ p ∈ parts, ArgIn input p := by
  cases h with
  | typed marked ht hs =>
    intro p hp
    rcases List.mem_append.mp hp with hp | hp
    · exact markerIf_argIn _ marked p hp
    rcases List.mem_cons.mp hp with rfl | hp
    · cases ht <;> exact ArgIn.of_kind nofun
    · exact (hs.argIn p hp).mono (ht.isSuffix.trans (List.suffix_append _ _))
  | untyped marked hs _ =>
    intro p hp
    rcases List.mem_append.mp hp with hp | hp
    · exact markerIf_argIn _ marked p hp
    · exact (hs.argIn p hp).mono (List.suffix_append _ _)

theorem CombinatorAt.argIn {input rest : List Char} {joint : List Part}
    (h : CombinatorAt input joint rest) : ∀ p ∈ joint, ArgIn input p := by
  have hjoint : ∀ (marked : Bool) (c : Combinator),
      ∀ p ∈ markerIf marked ++ [{ kind := .combinator c }], ArgIn input p := by
    intro marked c p hp
    rcases List.mem_append.mp hp with hp | hp
    · exact markerIf_argIn _ marked p hp
    · rw [List.mem_singleton] at hp
      subst hp
      exact ArgIn.of_kind nofun
  cases h with
  | symbol marked => exact hjoint marked _
  | descendant marked => exact hjoint marked _

theorem LinksAt.argIn {input rest : List Char} {parts : List Part} (h : LinksAt eb input parts rest) :
    ∀ p ∈ parts, ArgIn input p := by
  induction h with
  | nil => simp
  | link hc hs _ ih =>
    intro p hp
    simp only [List.mem_append] at hp
    rcases hp with (hp | hp) | hp
    · exact hc.argIn p hp
    · exact (hs.argIn p hp).mono hc.isSuffix
    · exact (ih p hp).mono (hs.isSuffix.trans hc.isSuffix)

/-- Every pseudo-class argument of a selector text is a piece of the text, shorter than it. -/
theorem SelectorText.argIn {input : List Char} {parts : List Part} (h : SelectorText eb input parts) :
    ∀ p ∈ parts, ArgIn input p := by
  cases h with
  | mk h₀ hf hl ht =>
    intro p hp
    rcases mem_closeMarker hp with hp | rfl
    · rcases List.mem_append.mp hp with hp | hp
      · exact (hf.argIn p hp).mono h₀.isSuffix
      · exact (hl.argIn p hp).mono (hf.isSuffix.trans h₀.isSuffix)
    · exact ArgIn.of_kind nofun

end Arguments

/-- What is left after a read that started at byte offset `i` of `input`: it starts on a
character boundary, no earlier than `i` and no later than the end of the text. -/
def ReadFrom (input : List Char) (i : Nat) (rest : List Char) : Prop :=
  ∃ j, i ≤ j ∧ j ≤ utf8Len input ∧ restAt input j = some rest

theorem readFrom_append {input mid rest : List Char} {i k : Nat}
    (hi : restAt input i = some (mid ++ rest)) (hk : k ≤ utf8Len mid) :
    ReadFrom input (i + k) rest := by
  obtain ⟨pre, hinput, rfl⟩ := restAt_eq_some_iff.mp hi
  refine ⟨utf8Len pre + utf8Len mid, by omega, ?_, ?_⟩
  · rw [hinput]
    simp
  · exact restAt_eq_some_iff.mpr ⟨pre ++ mid, by rw [hinput, List.append_assoc], utf8Len_append pre mid⟩

theorem readFrom_of_suffix {input rest rest' : List Char} {i : Nat}
    (hi : restAt input i = some rest) (hs : rest' <:+ rest) : ReadFrom input i rest' := by
  obtain ⟨mid, rfl⟩ := hs
  simpa using readFrom_append hi (Nat.zero_le _)

theorem readFrom_of_advances {input rest rest' : List Char} {i : Nat}
    (hi : restAt input i = some rest) (ha : Advances rest rest') : ReadFrom input (i + 1) rest' := by
  obtain ⟨⟨mid, rfl⟩, hl⟩ := ha
  -- what was read is not empty, so it takes at least one byte
  have hmid : mid ≠ [] := by
    rintro rfl
    simp at hl
  have hpos : utf8Len mid ≠ 0 := mt utf8Len_eq_zero.mp hmid
  exact readFrom_append hi (by omega)

/-- A read over the bytes from a boundary that collected `out` and left `after`: `out` is valid
UTF-8, and `after` is what follows a character boundary no earlier than `j`. -/
def DecodedFrom (input : List Char) (j : Nat) (out after : List UInt8) : Prop :=
  (∃ s, String.fromUTF8? out.toByteArray = some s) ∧ ∃ r, after = utf8Bytes r ∧ ReadFrom input j r

theorem decodedFrom_of_map {input : List Char} {j : Nat} {read : Option (String × List Char)}
    {out after : List UInt8} (h : read.map (fun p => (utf8Bytes p.1.toList, utf8Bytes p.2)) = some (out, after))
    (hland : ∀ s r, read = some (s, r) → ReadFrom input j r) : DecodedFrom input j out after := by
  obtain ⟨⟨s, r⟩, hr, he⟩ := Option.map_eq_some_iff.mp h
  simp only [Prod.mk.injEq] at he
  obtain ⟨rfl, rfl⟩ := he
  exact ⟨⟨_, fromUTF8?_utf8Bytes s.toList⟩, r, rfl, hland s r hr⟩

/-- What reading keeps to from a character boundary at byte offset `i` of `input`, with `rest`
still to read. Productions that fail answer nothing, so their caller goes on from `rest`. -/
structure ReadsForward (input : List Char) (i : Nat) (rest : List Char) : Prop where
  /-- A scanner call other than a reset keeps the text and ends on a boundary no earlier than
  `i`; a call that fails leaves the cursor where it was. -/
  call : ∀ s r c', (∀ p, s ≠ .reset p) → Cursor.step ⟨input, rest⟩ s = some (r, c') →
    c'.input = input ∧ ReadFrom input i c'.rest ∧
      (r = .text none ∨ r = .flag false → c' = ⟨input, rest⟩)
  /-- A reset to `i` brings the cursor back to `rest`, wherever reading went since. -/
  restore : ∀ rest₀, Cursor.step ⟨input, rest₀⟩ (.reset i) = some (.nothing, ⟨input, rest⟩)
  /-- An escape, a quoted section and one name character each end on a boundary at least one
  byte further. -/
  afterEscape : ∀ c r', escape rest = some (c, r') → ReadFrom input (i + 1) r'
  afterQuoted : ∀ q r', skipQuoted q rest = some r' → ReadFrom input (i + 1) r'
  afterUnit : ∀ accept c r', nameUnit accept rest = some (c, r') → ReadFrom input (i + 1) r'
  /-- So does every production of the reader that succeeds. -/
  afterType : ∀ p r', typePart rest = some (p, r') → ReadFrom input (i + 1) r'
  afterPrefixed : ∀ size isId f p r', (prefixedPart size isId rest f).1 = some (p, r') →
    ReadFrom input (i + 1) r'
  afterAttribute : ∀ size f p r', (attributePart size rest f).1 = some (p, r') →
    ReadFrom input (i + 1) r'
  afterPseudo : ∀ size f p r', (pseudoPart size rest f).1 = some (p, r') →
    ReadFrom input (i + 1) r'
  afterSpecial : ∀ size f p r', (specialPart size rest f).1 = some (p, r') →
    ReadFrom input (i + 1) r'
  afterSequence : ∀ size f ps r', (sequence size rest f).1 = some (ps, r') →
    ReadFrom input (i + 1) r'
  afterCombinator : ∀ joint r', combinatorParts rest = some (joint, r') → ReadFrom input (i + 1) r'
  /-- The links may read nothing, and end no earlier than `i`. -/
  afterLinks : ∀ size f, ReadFrom input i (links size rest f).2.1
  /-- The two loops go on after each round that reads, and give back a combinator with no
  sequence after it. -/
  specialsGoOn : ∀ size f f' p r', specialPart size rest f = (some (p, r'), f') →
    specialParts size rest f = (p :: (specialParts size r' f').1, (specialParts size r' f').2)
  linksGoOn : ∀ size f f' joint parts r r', combinatorParts rest = some (joint, r) →
    sequence size r f = (some (parts, r'), f') →
    links size rest f = (joint ++ parts ++ (links size r' f').1, (links size r' f').2)
  linkGivenBack : ∀ size f joint r, combinatorParts rest = some (joint, r) →
    (sequence size r f).1 = none → links size rest f = ([], rest, (sequence size r f).2)
  /-- The bytes left at offset `i` are the bytes of the characters left. -/
  bytesLeft : (utf8Bytes input).drop i = utf8Bytes rest
  /-- Over those bytes an escape, an identifier, a name, a quoted string, a skipped quoted
  section and a balanced scan each read what they read over the characters, and fail where
  those fail. -/
  escapeBytes : Bytes.escape (utf8Bytes rest) =
    (escape rest).map fun p => (String.utf8EncodeChar p.1, utf8Bytes p.2)
  identifierBytes : Bytes.identifier (utf8Bytes rest) =
    (identifier rest).map fun p => (utf8Bytes p.1.toList, utf8Bytes p.2)
  nameBytes : Bytes.name (utf8Bytes rest) = (name rest).map fun p => (utf8Bytes p.1.toList, utf8Bytes p.2)
  quotedBytes : Bytes.quoted (utf8Bytes rest) =
    (quoted rest).map fun p => (utf8Bytes p.1.toList, utf8Bytes p.2)
  skipBytes : ∀ q : Char, q.toNat < 128 →
    Bytes.skipQuoted q.toUInt8 (utf8Bytes rest) = (skipQuoted q rest).map utf8Bytes
  nestedBytes : ∀ n (t : Char), t.toNat < 128 → Bytes.nested n t.toUInt8 (utf8Bytes rest) =
    (nested n t rest).map fun p => (utf8Bytes p.1.toList, utf8Bytes p.2)
  /-- So an escape, an identifier, a name or a quoted string read over the bytes ends on a
  character boundary at least one byte further, with bytes that decode without loss; so does a
  skipped quoted section, and a balanced scan ends on a boundary no earlier than `i`. -/
  tokenLands : ∀ out after, (Bytes.escape (utf8Bytes rest) = some (out, after) ∨
    Bytes.identifier (utf8Bytes rest) = some (out, after) ∨ Bytes.name (utf8Bytes rest) = some (out, after) ∨
    Bytes.quoted (utf8Bytes rest) = some (out, after)) → DecodedFrom input (i + 1) out after
  skipLands : ∀ q : Char, q.toNat < 128 → ∀ after, Bytes.skipQuoted q.toUInt8 (utf8Bytes rest) = some after →
    ∃ r, after = utf8Bytes r ∧ ReadFrom input (i + 1) r
  nestedLands : ∀ n (t : Char), t.toNat < 128 → ∀ out after,
    Bytes.nested n t.toUInt8 (utf8Bytes rest) = some (out, after) → DecodedFrom input i out after

/-- Reading from any character boundary keeps to `ReadsForward`. -/
theorem reading_moves_forward {input rest : List Char} {i : Nat}
    (hi : restAt input i = some rest) : ReadsForward input i rest where
  call s r c' hs h := by
    obtain ⟨hinput, hsuffix, hfail⟩ := Cursor.step_forward hs h
    exact ⟨hinput, readFrom_of_suffix hi hsuffix, hfail⟩
  restore rest₀ := by
    rw [Cursor.step, hi]
    rfl
  afterEscape c r' h := readFrom_of_advances hi (escape_advances h)
  afterQuoted q r' h := readFrom_of_advances hi (skipQuoted_advances h)
  afterUnit accept c r' h :=
    readFrom_of_advances hi ⟨nameUnit_suffix h, nameUnit_shorter h⟩
  afterType p r' h := readFrom_of_advances hi (typePart_advances h)
  afterPrefixed size isId f p r' h := readFrom_of_advances hi (prefixedPart_advances h)
  afterAttribute size f p r' h := readFrom_of_advances hi (attributePart_advances h)
  afterPseudo size f p r' h := readFrom_of_advances hi (pseudoPart_advances h)
  afterSpecial size f p r' h := readFrom_of_advances hi (specialPart_advances h)
  afterSequence size f ps r' h := readFrom_of_advances hi (sequence_advances h)
  afterCombinator joint r' h := readFrom_of_advances hi (combinatorParts_advances h)
  afterLinks size f := readFrom_of_suffix hi (links_suffix size rest f)
  specialsGoOn size f f' p r' h := specialParts_of_specialPart h
  linksGoOn size f f' joint parts r r' hc hs := links_of_sequence hc hs
  linkGivenBack size f joint r hc hs := links_of_no_sequence hc hs
  bytesLeft := drop_utf8Bytes_of_restAt hi
  escapeBytes := escape_utf8Bytes rest
  identifierBytes := identifier_utf8Bytes rest
  nameBytes := name_utf8Bytes rest
  quotedBytes := quoted_utf8Bytes rest
  skipBytes q hq := skipQuoted_utf8Bytes hq rest
  nestedBytes n t ht := nested_utf8Bytes ht rest
  tokenLands out after h := by
    rcases h with h | h | h | h
    · rw [escape_utf8Bytes] at h
      obtain ⟨⟨c, r⟩, hr, he⟩ := Option.map_eq_some_iff.mp h
      simp only [Prod.mk.injEq] at he
      obtain ⟨rfl, rfl⟩ := he
      have hc : String.utf8EncodeChar c = utf8Bytes [c] := by simp
      refine ⟨⟨_, hc ▸ fromUTF8?_utf8Bytes [c]⟩, r, rfl, ?_⟩
      exact readFrom_of_advances hi (escape_advances hr)
    · rw [identifier_utf8Bytes] at h
      exact decodedFrom_of_map h fun s r hr => readFrom_of_advances hi (identifier_advances hr)
    · rw [name_utf8Bytes] at h
      exact decodedFrom_of_map h fun s r hr => readFrom_of_advances hi (name_advances hr)
    · rw [quoted_utf8Bytes] at h
      exact decodedFrom_of_map h fun s r hr => readFrom_of_advances hi (quoted_advances hr)
  skipLands q hq after h := by
    rw [skipQuoted_utf8Bytes hq] at h
    obtain ⟨r, hr, rfl⟩ := Option.map_eq_some_iff.mp h
    exact ⟨r, rfl, readFrom_of_advances hi (skipQuoted_advances hr)⟩
  nestedLands n t ht out after h := by
    rw [nested_utf8Bytes ht] at h
    exact decodedFrom_of_map h fun s r hr => readFrom_of_suffix hi (nested_suffix hr)

theorem reading_moves_forward_at_hash :
    restAt ['é', '#', 'b'] 2 = some ['#', 'b'] ∧ ReadsForward ['é', '#', 'b'] 2 ['#', 'b'] :=
  ⟨by decide, reading_moves_forward (by decide)⟩

end TreeQuery.Selector

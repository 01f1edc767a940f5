import TreeQuery.Proofs.SelectorTokens
import TreeQuery.Proofs.ChainText

/-!
# The selector grammar

    selector    S* sequence [ combinator sequence ]* [ S* '!' ]? S*
    sequence    '!'? [ type | '*' ]? special*         (at least one of type and special)
    special     '#' name | '.' ident | attribute | pseudo
    attribute   '[' S* ident S* [ op S* [ ident | string ] S* ]? [ 'i' S* ]? ']'
    op          '=' | '!=' | '^=' | '$=' | '|=' | '*=' | '~='
    pseudo      ':' ':'? ident [ '(' balanced-text ')' ]?
    combinator  '!'? [ S* [ '>' | '+' | '~' ] S* | S+ ]

`S` is a selector blank and `ident`, `name` and `string` are the tokens of `SelectorTokens`.
-/

namespace TreeQuery.Selector

def BlanksAt (input rest : List Char) : Prop :=
  ∃ bs, input = bs ++ rest ∧ ∀ b ∈ bs, isBlank b = true

def OpAt (input : List Char) (op : AttrOp) (rest : List Char) : Prop :=
  op ∈ AttrOp.valued ∧ input = op.symbol.toList ++ rest

/-- The end of an attribute body: the case flag and blanks, or nothing. -/
inductive FlagAt : List Char → Bool → Prop
  | none : FlagAt [] false
  | flag {c : Char} {rest : List Char} (hc : c = 'i' ∨ c = 'I') (hb : BlanksAt rest []) :
      FlagAt (c :: rest) true

/-- The end of a selector: blanks, and a marker between blanks when the flag says so. -/
inductive TailAt : List Char → Bool → Prop
  | plain {input : List Char} (h : BlanksAt input []) : TailAt input false
  | marked {input rest : List Char} (h : BlanksAt input ('!' :: rest)) (hb : BlanksAt rest []) :
      TailAt input true

/-- A pseudo argument: none, or an opening parenthesis, the text `nested` reads, and the
closing parenthesis it stops at. -/
inductive ArgAt : List Char → Option String → List Char → Prop
  | none (input : List Char) : ArgAt input none input
  | some {input rest : List Char} {text : String}
      (h : nested argumentNesting ')' input = some (text, ')' :: rest)) :
      ArgAt ('(' :: input) (some text) rest

def markText (marked : Bool) : List Char := if marked then ['!'] else []

def combinatorSymbols : List (Char × Combinator) :=
  [('>', .child), ('+', .adjacent), ('~', .neighboring)]

/-- A combinator, with the marker that may stand before it: a combinator character between
blanks, or blanks alone. -/
inductive CombinatorAt : List Char → List Part → List Char → Prop
  | symbol (marked : Bool) {input mid rest : List Char} {s : Char} {c : Combinator}
      (hs : (s, c) ∈ combinatorSymbols) (h₀ : BlanksAt input (s :: mid)) (h₁ : BlanksAt mid rest) :
      CombinatorAt (markText marked ++ input) (markerIf marked ++ [{ kind := .combinator c }]) rest
  | descendant (marked : Bool) {b : Char} {input rest : List Char} (hb : isBlank b = true)
      (h : BlanksAt input rest) :
      CombinatorAt (markText marked ++ b :: input)
        (markerIf marked ++ [{ kind := .combinator .descendant }]) rest

def closeMarker (parts : List Part) (trailing : Bool) : List Part :=
  if trailing && !parts.any (fun p => p.kind == .subject) then parts ++ [subjectPart] else parts

section Grammar

variable (eb : Char → Bool)

/-- An attribute value, an identifier or a string; the flag says whether it was quoted. -/
inductive ValueAt : List Char → String → Bool → List Char → Prop
  | ident {input rest : List Char} {v : String} (h : IdentAt eb input v rest) :
      ValueAt input v false rest
  | string {input rest : List Char} {v : String} (h : StringAt eb input v rest) :
      ValueAt input v true rest

/-- The whole text between an attribute selector's brackets, with the part it derives. -/
inductive AttrBody : List Char → Part → Prop
  | present {body r₀ r₁ r₂ : List Char} {attr : String} {caseless : Bool}
      (h₀ : BlanksAt body r₀) (hi : IdentAt eb r₀ attr r₁) (h₁ : BlanksAt r₁ r₂)
      (hf : FlagAt r₂ caseless) :
      AttrBody body { kind := .attribute .present caseless, ident := attr }
  | valued {body r₀ r₁ r₂ r₃ r₄ r₅ r₆ : List Char} {attr v : String} {op : AttrOp}
      {quoted caseless : Bool} (h₀ : BlanksAt body r₀) (hi : IdentAt eb r₀ attr r₁)
      (h₁ : BlanksAt r₁ r₂) (hop : OpAt r₂ op r₃) (h₃ : BlanksAt r₃ r₄)
      (hv : ValueAt eb r₄ v quoted r₅) (h₅ : BlanksAt r₅ r₆) (hf : FlagAt r₆ caseless) :
      AttrBody body { kind := .attribute op caseless, ident := attr, arg := some v }

inductive AttributeAt : List Char → Part → List Char → Prop
  | mk {body rest : List Char} {p : Part} (h : AttrBody eb body p) :
      AttributeAt ('[' :: (body ++ ']' :: rest)) p rest

/-- A pseudo-class or pseudo-element. After a single colon, a built-in pseudo-class name in
any ASCII case is kept under its canonical name, and any other name must have the custom
shape; after two colons, the name must have the custom shape. -/
inductive PseudoAt : List Char → Part → List Char → Prop
  | builtin {body r rest : List Char} {written : String} {arg : Option String} (q : PseudoClass)
      (hi : IdentAt eb body written r) (ha : ArgAt r arg rest)
      (hq : PseudoClass.ofName? written = some q) :
      PseudoAt (':' :: body) { kind := .pseudoClass, ident := q.name, arg := arg } rest
  | custom {body r rest : List Char} {written : String} {arg : Option String}
      (hi : IdentAt eb body written r) (ha : ArgAt r arg rest)
      (hq : PseudoClass.ofName? written = none) (hw : customShape written = true) :
      PseudoAt (':' :: body) { kind := .pseudoClass, ident := written, arg := arg } rest
  | element {body r rest : List Char} {written : String} {arg : Option String}
      (hi : IdentAt eb body written r) (ha : ArgAt r arg rest) (hw : customShape written = true) :
      PseudoAt (':' :: ':' :: body) { kind := .pseudoElement, ident := written, arg := arg } rest

inductive SpecialAt : List Char → Part → List Char → Prop
  | idName {body rest : List Char} {n : String} (h : NameAt eb body n rest) :
      SpecialAt ('#' :: body) { kind := .idName, ident := n } rest
  | className {body rest : List Char} {i : String} (h : IdentAt eb body i rest) :
      SpecialAt ('.' :: body) { kind := .className, ident := i } rest
  | attr {input rest : List Char} {p : Part} (h : AttributeAt eb input p rest) :
      SpecialAt input p rest
  | pseudo {input rest : List Char} {p : Part} (h : PseudoAt eb input p rest) :
      SpecialAt input p rest

inductive SpecialsAt : List Char → List Part → List Char → Prop
  | nil (input : List Char) : SpecialsAt input [] input
  | cons {input mid rest : List Char} {p : Part} {ps : List Part} (h : SpecialAt eb input p mid)
      (hs : SpecialsAt mid ps rest) : SpecialsAt input (p :: ps) rest

inductive TypeAt : List Char → Part → List Char → Prop
  | universal (rest : List Char) : TypeAt ('*' :: rest) { kind := .universal } rest
  | typeName {input rest : List Char} {i : String} (h : IdentAt eb input i rest) :
      TypeAt input { kind := .typeName, ident := i } rest

/-- A simple selector sequence: a marker where the flag asks for one, then a type selector and
special selectors, or special selectors alone, at least one. -/
inductive SequenceAt : List Char → List Part → List Char → Prop
  | typed (marked : Bool) {input mid rest : List Char} {p : Part} {more : List Part}
      (ht : TypeAt eb input p mid) (hs : SpecialsAt eb mid more rest) :
      SequenceAt (markText marked ++ input) (markerIf marked ++ p :: more) rest
  | untyped (marked : Bool) {input rest : List Char} {more : List Part}
      (hs : SpecialsAt eb input more rest) (hne : more ≠ []) :
      SequenceAt (markText marked ++ input) (markerIf marked ++ more) rest

inductive LinksAt : List Char → List Part → List Char → Prop
  | nil (input : List Char) : LinksAt input [] input
  | link {input mid mid' rest : List Char} {joint seq more : List Part}
      (hc : CombinatorAt input joint mid) (hs : SequenceAt eb mid seq mid')
      (hl : LinksAt mid' more rest) : LinksAt input (joint ++ seq ++ more) rest

/-- A whole selector text with the parts it derives. -/
inductive SelectorText : List Char → List Part → Prop
  | mk {input r₀ r₁ r₂ : List Char} {first more : List Part} {trailing : Bool}
      (h₀ : BlanksAt input r₀) (hf : SequenceAt eb r₀ first r₁) (hl : LinksAt eb r₁ more r₂)
      (ht : TailAt r₂ trailing) : SelectorText input (closeMarker (first ++ more) trailing)

end Grammar

theorem BlanksAt.refl (input : List Char) : BlanksAt input input := ⟨[], rfl, by simp⟩

theorem BlanksAt.trans {a b c : List Char} (h₁ : BlanksAt a b) (h₂ : BlanksAt b c) :
    BlanksAt a c := by
  obtain ⟨bs, rfl, hbs⟩ := h₁
  obtain ⟨bs', rfl, hbs'⟩ := h₂
  refine ⟨bs ++ bs', by rw [List.append_assoc], fun b hb => ?_⟩
  rcases List.mem_append.mp hb with hb | hb
  · exact hbs b hb
  · exact hbs' b hb

theorem blanksAt_skipBlanks (cs : List Char) : BlanksAt cs (skipBlanks cs) :=
  ⟨cs.takeWhile isBlank, List.takeWhile_append_dropWhile.symm,
    fun _ hb => List.mem_takeWhile_imp hb⟩

theorem blanksAt_nil_of_isEmpty {cs : List Char} (h : (skipBlanks cs).isEmpty = true) :
    BlanksAt cs [] := by
  have hb := blanksAt_skipBlanks cs
  rwa [List.isEmpty_iff.mp h] at hb

theorem skipBlanks_cons_blank {b : Char} (hb : isBlank b = true) (rest : List Char) :
    skipBlanks (b :: rest) = skipBlanks rest := by
  simp [skipBlanks, hb]

theorem skipBlanks_of_blanksAt {cs rest : List Char} (h : BlanksAt cs rest)
    (hr : ∀ c ∈ rest.head?, isBlank c = false) : skipBlanks cs = rest := by
  obtain ⟨bs, rfl, hbs⟩ := h
  induction bs with
  | nil =>
    cases rest with
    | nil => rfl
    | cons c r => exact skipBlanks_cons (hr c rfl) r
  | cons b bs ih =>
    rw [List.cons_append, skipBlanks_cons_blank (hbs b List.mem_cons_self)]
    exact ih fun x hx => hbs x (List.mem_cons_of_mem b hx)

theorem BlanksAt.eq_of_head {cs rest : List Char} (h : BlanksAt cs rest)
    (hc : ∀ c ∈ cs.head?, isBlank c = false) : cs = rest := by
  obtain ⟨bs, rfl, hbs⟩ := h
  cases bs with
  | nil => rfl
  | cons b bs =>
    have := hc b rfl
    rw [hbs b List.mem_cons_self] at this
    cases this

theorem flagAt_of_caseFlag {cs : List Char} {caseless : Bool} (h : caseFlag cs = (caseless, [])) :
    FlagAt cs caseless := by
  unfold caseFlag at h
  split at h
  · rename_i c rest
    split at h
    · rename_i hc
      cases h
      exact .flag hc.1 (blanksAt_nil_of_isEmpty hc.2)
    · cases h
  · cases h
    exact .none

theorem flagAt_of_flagStep {allowed : Prop} [Decidable allowed] {cs : List Char} {caseless : Bool}
    (h : (if allowed then caseFlag cs else (false, cs)) = (caseless, [])) : FlagAt cs caseless := by
  split at h
  · exact flagAt_of_caseFlag h
  · cases h
    exact .none

theorem opAt_of_attrOperator {cs rest : List Char} {op : AttrOp}
    (h : attrOperator cs = some (op, rest)) : OpAt cs op rest := by
  unfold attrOperator at h
  dsimp only at h
  split at h
  · rename_i op' hfind
    cases h
    refine ⟨List.mem_of_find?_eq_some hfind, ?_⟩
    rw [beq_iff_eq.mp (List.find?_eq_some_iff_append.mp hfind).1, String.toList_ofList,
      List.take_append_drop]
  · split at h
    · rename_i op' _ hfind
      cases h
      refine ⟨List.mem_of_find?_eq_some hfind, ?_⟩
      rw [beq_iff_eq.mp (List.find?_eq_some_iff_append.mp hfind).1, String.toList_ofList,
        List.take_append_drop]
    · cases h

theorem attrBody_of_attributeBody {body : List Char} {p : Part} (h : attributeBody body = .ok p) :
    AttrBody isBlank body p := by
  unfold attributeBody at h
  dsimp only at h
  split at h
  · cases h
  rename_i attr r₁ hid
  have hi := identifier_eq_some_iff.mp hid
  split at h
  · generalize hfl : (if (skipBlanks r₁).length < r₁.length then caseFlag (skipBlanks r₁)
      else (false, skipBlanks r₁)) = fl at h
    obtain ⟨caseless, r₃⟩ := fl
    split at h
    · rename_i hr₃
      cases h
      obtain rfl : r₃ = [] := List.isEmpty_iff.mp hr₃
      exact .present (blanksAt_skipBlanks body) hi (blanksAt_skipBlanks r₁) (flagAt_of_flagStep hfl)
    · cases h
  · rename_i op r₃ hop
    split at h
    · cases h
    rename_i v quoted r₅ hvalue
    have hv : ValueAt isBlank (skipBlanks r₃) v quoted r₅ := by
      split at hvalue
      · cases hvalue
        exact .string (quoted_eq_some_iff.mp ‹_›)
      · obtain ⟨⟨v', r'⟩, hid', heq⟩ := Option.map_eq_some_iff.mp hvalue
        cases heq
        exact .ident (identifier_eq_some_iff.mp hid')
    generalize hfl : (if (decide ((skipBlanks r₅).length < r₅.length) || quoted) = true then
      caseFlag (skipBlanks r₅) else (false, skipBlanks r₅)) = fl at h
    obtain ⟨caseless, r₇⟩ := fl
    split at h
    · rename_i hr₇
      cases h
      obtain rfl : r₇ = [] := List.isEmpty_iff.mp hr₇
      exact .valued (blanksAt_skipBlanks body) hi (blanksAt_skipBlanks r₁) (opAt_of_attrOperator hop)
        (blanksAt_skipBlanks r₃) hv (blanksAt_skipBlanks r₅) (flagAt_of_flagStep hfl)
    · cases h

theorem attributeAt_of_attributePart {size : Nat} {body rest : List Char} {f : Failure} {p : Part}
    (h : (attributePart size ('[' :: body) f).1 = some (p, rest)) :
    AttributeAt isBlank ('[' :: body) p rest := by
  unfold attributePart at h
  simp only [List.drop_succ_cons, List.drop_zero] at h
  split at h
  · cases h
  rename_i inner r hn
  split at h
  · rename_i hbody
    simp only [Option.some.injEq, Prod.mk.injEq] at h
    obtain ⟨rfl, rfl⟩ := h
    obtain ⟨r', rfl, rfl, -⟩ := nested_frame hn
    exact .mk (attrBody_of_attributeBody hbody)
  · cases h

theorem pseudoAt_of_pseudoPart {size : Nat} {body rest : List Char} {f : Failure} {p : Part}
    (h : (pseudoPart size (':' :: body) f).1 = some (p, rest)) :
    PseudoAt isBlank (':' :: body) p rest := by
  unfold pseudoPart at h
  rw [show (':' :: body).drop 1 = body from rfl] at h
  split at h
  rename_i element name hcolons
  dsimp only at h
  split at h
  · cases h
  rename_i written r₁ hid
  have hi := identifier_eq_some_iff.mp hid
  split at h
  · cases h
  rename_i arg r₄ hargument
  have harg : ArgAt r₁ arg r₄ := by
    split at hargument
    · obtain ⟨⟨text, r₃⟩, hn, heq⟩ := Option.map_eq_some_iff.mp hargument
      cases heq
      obtain ⟨r', rfl, -, -⟩ := nested_frame hn
      exact .some hn
    · cases hargument
      exact .none _
  -- one colon or two, as the text after the first colon says
  split at hcolons
  · cases hcolons
    split at h
    · rename_i q hq
      cases hq
    · split at h
      · rename_i hw
        cases h
        exact .element hi harg hw
      · cases h
  · cases hcolons
    split at h
    · rename_i q hq
      cases h
      exact .builtin q hi harg hq
    · split at h
      · rename_i hq hw
        cases h
        exact .custom hi harg hq hw
      · cases h

theorem specialAt_of_specialPart {size : Nat} {cs rest : List Char} {f : Failure} {p : Part}
    (h : (specialPart size cs f).1 = some (p, rest)) : SpecialAt isBlank cs p rest := by
  unfold specialPart at h
  split at h
  · unfold prefixedPart at h
    simp only [List.drop_succ_cons, List.drop_zero, if_true] at h
    split at h
    · rename_i n r hn
      simp only [Option.some.injEq, Prod.mk.injEq] at h
      obtain ⟨rfl, rfl⟩ := h
      exact .idName (name_eq_some_iff.mp hn)
    · cases h
  · unfold prefixedPart at h
    simp only [List.drop_succ_cons, List.drop_zero, Bool.false_eq_true, if_false] at h
    split at h
    · rename_i i r hi
      simp only [Option.some.injEq, Prod.mk.injEq] at h
      obtain ⟨rfl, rfl⟩ := h
      exact .className (identifier_eq_some_iff.mp hi)
    · cases h
  · exact .attr (attributeAt_of_attributePart h)
  · exact .pseudo (pseudoAt_of_pseudoPart h)
  · cases h

theorem specialsAt_specialParts (size : Nat) (cs : List Char) (f : Failure) :
    SpecialsAt isBlank cs (specialParts size cs f).1 (specialParts size cs f).2.1 := by
  fun_induction specialParts size cs f with
  | case1 cs f q rest f' hq _ ps after f'' hrec ih =>
    rw [hrec] at ih
    exact .cons (specialAt_of_specialPart (by rw [hq])) ih
  | case2 cs f q rest f' hq _ => exact .cons (specialAt_of_specialPart (by rw [hq])) (.nil rest)
  | case3 cs f => exact .nil cs

theorem typeAt_of_typePart {cs rest : List Char} {p : Part} (h : typePart cs = some (p, rest)) :
    TypeAt isBlank cs p rest := by
  unfold typePart at h
  split at h
  · cases h
    exact .universal _
  · obtain ⟨⟨i, r⟩, hi, heq⟩ := Option.map_eq_some_iff.mp h
    cases heq
    exact .typeName (identifier_eq_some_iff.mp hi)

theorem sequenceAt_of_sequence {size : Nat} {cs rest : List Char} {f : Failure} {ps : List Part}
    (h : (sequence size cs f).1 = some (ps, rest)) : SequenceAt isBlank cs ps rest := by
  unfold sequence at h
  split at h
  rename_i marker r₀ hm
  split at h
  rename_i typ r₁ ht
  split at h
  rename_i more r₂ f' hmore
  split at h
  · cases h
  rename_i hne
  simp only [Option.some.injEq, Prod.mk.injEq] at h
  obtain ⟨rfl, rfl⟩ := h
  have hs : SpecialsAt isBlank r₁ more r₂ := by
    have := specialsAt_specialParts size r₁ f
    rwa [hmore] at this
  obtain ⟨marked, rfl, rfl⟩ : ∃ marked, marker = markerIf marked ∧ cs = markText marked ++ r₀ := by
    split at hm
    · cases hm
      exact ⟨true, rfl, rfl⟩
    · cases hm
      exact ⟨false, rfl, rfl⟩
  split at ht
  · rename_i p r hp
    cases ht
    rw [List.append_assoc, List.singleton_append]
    exact .typed marked (typeAt_of_typePart hp) hs
  · cases ht
    rw [List.append_nil]
    exact .untyped marked hs (by simpa using hne)

theorem exists_blank_of_skipBlanks {cs : List Char} (h : (skipBlanks cs).length < cs.length) :
    ∃ b t, cs = b :: t ∧ isBlank b = true ∧ skipBlanks t = skipBlanks cs := by
  cases cs with
  | nil => cases h
  | cons b t =>
    by_cases hb : isBlank b = true
    · exact ⟨b, t, rfl, hb, (skipBlanks_cons_blank hb t).symm⟩
    · rw [skipBlanks_cons (by simpa using hb)] at h
      exact absurd h (Nat.lt_irrefl _)

theorem combinatorAt_of_combinatorParts {cs rest : List Char} {joint : List Part}
    (h : combinatorParts cs = some (joint, rest)) : CombinatorAt cs joint rest := by
  unfold combinatorParts at h
  split at h
  rename_i marker r₀ hm
  obtain ⟨marked, rfl, rfl⟩ : ∃ marked, marker = markerIf marked ∧ cs = markText marked ++ r₀ := by
    split at hm
    · cases hm
      exact ⟨true, rfl, rfl⟩
    · cases hm
      exact ⟨false, rfl, rfl⟩
  dsimp only at h
  have hb := blanksAt_skipBlanks r₀
  split at h
  · rename_i r hr
    cases h
    rw [hr] at hb
    exact .symbol marked (by simp [combinatorSymbols]) hb (blanksAt_skipBlanks r)
  · rename_i r hr
    cases h
    rw [hr] at hb
    exact .symbol marked (by simp [combinatorSymbols]) hb (blanksAt_skipBlanks r)
  · rename_i r hr
    cases h
    rw [hr] at hb
    exact .symbol marked (by simp [combinatorSymbols]) hb (blanksAt_skipBlanks r)
  · split at h
    · rename_i hlt
      cases h
      obtain ⟨b, t, rfl, hbl, ht⟩ := exists_blank_of_skipBlanks hlt
      rw [← ht]
      exact .descendant marked hbl (blanksAt_skipBlanks t)
    · cases h

theorem linksAt_links (size : Nat) (cs : List Char) (f : Failure) :
    LinksAt isBlank cs (links size cs f).1 (links size cs f).2.1 := by
  fun_induction links size cs f with
  | case1 cs f => exact .nil cs
  | case2 cs f => exact .nil cs
  | case3 cs f joint r hj parts rest f' hseq _ ps after f'' hrec ih =>
    rw [hrec] at ih
    exact .link (combinatorAt_of_combinatorParts hj) (sequenceAt_of_sequence (by rw [hseq])) ih
  | case4 cs f joint r hj parts rest f' hseq _ =>
    have := LinksAt.link (combinatorAt_of_combinatorParts hj)
      (sequenceAt_of_sequence (by rw [hseq])) (.nil rest)
    rwa [List.append_nil] at this


theorem closeMarker_true (parts : List Part) :
    closeMarker parts true =
      if parts.any (fun p => p.kind == .subject) then parts else parts ++ [subjectPart] := by
  cases h : parts.any (fun p => p.kind == .subject) <;> simp [closeMarker, h]

theorem closeMarker_false (parts : List Part) : closeMarker parts false = parts := by
  simp [closeMarker]

/-- The reader accepts a text exactly when it reads a first sequence, then links (none when
combinators are not read), then a tail; the chain is what these read, with the closing marker
kept only when none came before. -/
theorem readChain_eq_ok_iff {b : Bool} {text : String} {c : Chain} :
    readChain b text = .ok c ↔
      ∃ first r₁ f more r₂ f' trailing,
        sequence (utf8Len text.toList) (skipBlanks text.toList) none = (some (first, r₁), f) ∧
        (if b then links (utf8Len text.toList) r₁ f else ([], r₁, f)) = (more, r₂, f') ∧
        TailAt r₂ trailing ∧ c = ⟨closeMarker (first ++ more) trailing⟩ := by
  constructor
  · intro h
    unfold readChain at h
    dsimp only at h
    split at h
    · cases h
    rename_i first r₁ f hseq
    generalize hL :
      (if b = true then links (utf8Len text.toList) r₁ f else ([], r₁, f)) = L at h
    obtain ⟨more, r₂, f'⟩ := L
    dsimp only at h
    have hb := blanksAt_skipBlanks r₂
    generalize skipBlanks r₂ = s at h hb
    -- a closing marker between blanks, or blanks alone
    split at h
    · generalize hP : (if (first ++ more).any (fun p => p.kind == .subject) = true
        then first ++ more else first ++ more ++ [subjectPart]) = P at h
      split at h
      · rename_i hrest
        cases h
        exact ⟨first, r₁, f, more, r₂, f', true, hseq, hL,
          .marked hb (blanksAt_nil_of_isEmpty hrest), by rw [← hP, closeMarker_true]⟩
      · cases h
    · split at h
      · rename_i hr₂
        cases h
        exact ⟨first, r₁, f, more, r₂, f', false, hseq, hL,
          .plain (blanksAt_nil_of_isEmpty hr₂), by rw [closeMarker_false]⟩
      · cases h
  · rintro ⟨first, r₁, f, more, r₂, f', trailing, hseq, hL, ht, rfl⟩
    unfold readChain
    simp only
    rw [hseq]
    simp only
    rw [hL]
    simp only
    cases ht with
    | plain hb =>
      rw [skipBlanks_of_blanksAt hb (by simp)]
      simp only [closeMarker_false]
      rw [skipBlanks_of_blanksAt hb (by simp)]
      rfl
    | marked hb hr =>
      rw [skipBlanks_of_blanksAt hb (by simpa using (by decide : isBlank '!' = false))]
      simp only [skipBlanks_of_blanksAt hr (by simp), List.isEmpty_nil, if_true]
      rw [closeMarker_true]

theorem readChain_selectorText {text : String} {c : Chain} (h : readChain true text = .ok c) :
    SelectorText isBlank text.toList c.parts := by
  obtain ⟨first, r₁, f, more, r₂, f', trailing, hseq, hL, ht, rfl⟩ :=
    readChain_eq_ok_iff.mp h
  have hl := linksAt_links (utf8Len text.toList) r₁ f
  simp only [if_true] at hL
  simp only [hL] at hl
  exact .mk (blanksAt_skipBlanks text.toList) (sequenceAt_of_sequence (by rw [hseq])) hl ht

end TreeQuery.Selector

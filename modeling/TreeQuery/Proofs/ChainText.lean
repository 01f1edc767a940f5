import TreeQuery.Proofs.ChainShape

/-!
# Reading a chain's text back

A chain the reader built reads back from its canonical text as the same chain, provided no
name and no value holds U+0000, whose escape reads as U+FFFD.
-/

namespace TreeQuery.Selector

/-- A part whose text reads back as itself: neither its name nor an attribute's value holds
U+0000. -/
def Part.Writable (p : Part) : Prop :=
  '\x00' ∉ p.ident.toList ∧
    ∀ op caseless, p.kind = .attribute op caseless → '\x00' ∉ p.argText.toList

def partsText (ps : List Part) : List Char := ps.flatMap fun p => p.render.toList

@[simp] theorem partsText_nil : partsText [] = [] := rfl

@[simp] theorem partsText_cons (p : Part) (ps : List Part) :
    partsText (p :: ps) = p.render.toList ++ partsText ps := by
  simp [partsText]

@[simp] theorem partsText_append (ps qs : List Part) :
    partsText (ps ++ qs) = partsText ps ++ partsText qs := by
  simp [partsText]

theorem render_toList (c : Chain) : c.render.toList = partsText c.parts := by
  simp [Chain.render, partsText, String.toList_join, List.flatMap, Function.comp_def]

/-- What may follow a sequence in a chain's text: nothing, a combinator or a marker. -/
def SeqEnd (r : List Char) : Prop := ∀ c ∈ r.head?, c = ' ' ∨ c = '!'

/-- What may follow a part inside a sequence: the end of the sequence or a special selector. -/
def PartEnd (r : List Char) : Prop := ∀ c ∈ r.head?, c ∈ [' ', '!', '.', '#', '[', ':']

theorem SeqEnd.partEnd {r : List Char} (h : SeqEnd r) : PartEnd r := fun c hc => by
  rcases h c hc with rfl | rfl <;> decide

theorem PartEnd.nameUnit_none {r : List Char} (h : PartEnd r) : nameUnit isNameChar r = none := by
  cases r with
  | nil => rfl
  | cons c r =>
    have hc := h c rfl
    have : c ≠ '\\' ∧ isNameChar c = false := by
      simp only [List.mem_cons, List.not_mem_nil, or_false] at hc
      rcases hc with rfl | rfl | rfl | rfl | rfl | rfl <;> decide
    simp [nameUnit, this.1, this.2]

theorem PartEnd.not_paren {r : List Char} (h : PartEnd r) : r.head? ≠ some '(' := fun he => by
  have := h '(' he
  simp at this

theorem seqEnd_closing {r : List Char} (hr : r = [] ∨ r = ['!']) : SeqEnd r := by
  rcases hr with rfl | rfl <;> intro x hx <;> cases hx
  exact .inr rfl

theorem SeqEnd.specialPart_none {r : List Char} (h : SeqEnd r) (size : Nat) (f : Failure) :
    (specialPart size r f).1 = none := by
  cases r with
  | nil => rfl
  | cons c r => rcases h c rfl with rfl | rfl <;> rfl

/-- A character that can start the text of a name: an escape, a hyphen or a name-start
character. -/
def leadsName (d : Char) : Bool := d == '\\' || d == '-' || isNameStart d

theorem identText_head {i : String} (hne : i.toList ≠ []) :
    ∃ d t, (identText i).toList = d :: t ∧ leadsName d = true := by
  obtain ⟨c, cs, hi⟩ := List.exists_cons_of_ne_nil hne
  by_cases hd : c = '-' ∧ cs ≠ []
  · obtain ⟨rfl, hcs⟩ := hd
    obtain ⟨c', cs', rfl⟩ := List.exists_cons_of_ne_nil hcs
    exact ⟨'-', _, identText_toList_of_dash hi, rfl⟩
  · obtain ⟨t, ht⟩ := nameCharText_head (isNameStart c) c
    refine ⟨_, _, by rw [identText_toList_of_start hi hd, ht, List.cons_append], ?_⟩
    cases hs : isNameStart c <;> simp [leadsName, hs]

theorem ne_of_leadsName {d x : Char} (hd : leadsName d = true) (hx : leadsName x = false) :
    d ≠ x := by
  rintro rfl
  rw [hd] at hx
  cases hx

theorem isBlank_of_leadsName {d : Char} (hd : leadsName d = true) : isBlank d = false := by
  simp only [leadsName, Bool.or_eq_true, beq_iff_eq] at hd
  rcases hd with (rfl | rfl) | hs
  · decide
  · decide
  · simp only [isNameStart, nameStartByte, Bool.or_eq_true, Bool.and_eq_true, decide_eq_true_eq,
      beq_iff_eq] at hs
    have : ¬ (d.toNat = 32 ∨ (9 ≤ d.toNat ∧ d.toNat ≤ 13)) := by omega
    simpa [isBlank, blankByte] using this

theorem Special.text_head {p : Part} (hp : Special p) :
    ∃ d t, p.render.toList = d :: t ∧ d ∈ ['.', '#', '[', ':'] := by
  cases hp <;> simp [Part.render]

/-- A character that can start a compound's text after its marker: the universal selector,
a name, or a special selector. -/
def StartsCompound (d : Char) : Prop := d = '*' ∨ leadsName d = true ∨ d ∈ ['.', '#', '[', ':']

theorem StartsCompound.facts {d : Char} (hd : StartsCompound d) :
    isBlank d = false ∧ d ≠ '!' ∧ d ≠ '>' ∧ d ≠ '+' ∧ d ≠ '~' := by
  rcases hd with rfl | hl | hm
  · decide
  · exact ⟨isBlank_of_leadsName hl, ne_of_leadsName hl (by decide), ne_of_leadsName hl (by decide),
      ne_of_leadsName hl (by decide), ne_of_leadsName hl (by decide)⟩
  · simp only [List.mem_cons, List.not_mem_nil, or_false] at hm
    rcases hm with rfl | rfl | rfl | rfl <;> decide

theorem compound_head {typ : Option Part} {more : List Part} (ht : ∀ p ∈ typ, TypeSel p)
    (hs : ∀ p ∈ more, Special p) (hne : typ.isSome ∨ more ≠ []) :
    ∃ d t, partsText (typ.toList ++ more) = d :: t ∧ StartsCompound d := by
  cases typ with
  | some p =>
    cases ht p rfl with
    | universal => exact ⟨'*', partsText more, by simp [Part.render], .inl rfl⟩
    | typeName hi =>
      obtain ⟨d, t, hd, hl⟩ := identText_head hi
      exact ⟨d, t ++ partsText more, by simp [Part.render, hd], .inr (.inl hl)⟩
  | none =>
    obtain ⟨p, ps, rfl⟩ := List.exists_cons_of_ne_nil (hne.resolve_left (by simp))
    obtain ⟨d, t, hd, hm⟩ := (hs p (List.mem_cons_self ..)).text_head
    exact ⟨d, t ++ partsText ps, by simp [hd], .inr (.inr hm)⟩

theorem IsSequence.text_head {ps : List Part} (hs : IsSequence ps) :
    ∃ d t, partsText ps = d :: t ∧ (d = '!' ∨ StartsCompound d) := by
  obtain ⟨marked, typ, more, ht, hsp, hne⟩ := hs
  cases marked
  · obtain ⟨d, t, hd, hsd⟩ := compound_head ht hsp hne
    exact ⟨d, t, by simp [hd], .inr hsd⟩
  · exact ⟨'!', partsText (typ.toList ++ more), by simp [subjectPart, Part.render], .inl rfl⟩

theorem seqHead_facts {d : Char} (hd : d = '!' ∨ StartsCompound d) :
    isBlank d = false ∧ d ≠ '>' ∧ d ≠ '+' ∧ d ≠ '~' := by
  rcases hd with rfl | hd
  · decide
  · exact ⟨hd.facts.1, hd.facts.2.2⟩

theorem notMem_scanMarks_of_isNameChar {c : Char} (h : isNameChar c = true) : c ∉ scanMarks := by
  intro hm
  simp only [scanMarks, List.mem_cons, List.not_mem_nil, or_false] at hm
  rcases hm with rfl | rfl | rfl | rfl | rfl | rfl | rfl | rfl | rfl | rfl | rfl | rfl <;>
    exact absurd h (by decide)

theorem notMem_scanMarks_of_isHexDigit {c : Char} (h : isHexDigit c = true) : c ∉ scanMarks := by
  intro hm
  simp only [scanMarks, List.mem_cons, List.not_mem_nil, or_false] at hm
  rcases hm with rfl | rfl | rfl | rfl | rfl | rfl | rfl | rfl | rfl | rfl | rfl | rfl <;>
    exact absurd h (by decide)

theorem hexText_isHexDigit (n : Nat) : ∀ d ∈ (hexText n).toList, isHexDigit d = true := by
  rw [hexText, String.toList_ofList]
  exact (toDigits_hex n).1

theorem nameRunText_cons (c : Char) (cs : List Char) :
    nameRunText (c :: cs) = (nameCharText (isNameChar c) c).toList ++ nameRunText cs := by
  simp [nameRunText]

theorem valueText_cons (c : Char) (cs : List Char) :
    valueText (c :: cs) = (valueCharText c).toList ++ valueText cs := by
  simp [valueText]

section Scan

variable {n : Nesting} {t : Char}

theorem balanced_hexEscape (ht : t ∈ scanMarks) (hb : '\\' ≠ t) (c : Char) (rest : List Char) :
    balanced n t [] ('\\' :: (hexText c.toNat).toList ++ ' ' :: rest) = balanced n t [] rest := by
  obtain ⟨d, ds, hds, -⟩ := hexText_toList_cons c
  have hdig := hexText_isHexDigit c.toNat
  rw [hds] at hdig ⊢
  rw [List.cons_append, List.cons_append, balanced_escaped hb,
    balanced_quiet_append ht (fun e he => notMem_scanMarks_of_isHexDigit
      (hdig e (List.mem_cons_of_mem _ he))), balanced_quiet ht (by decide)]

theorem balanced_nameCharText (ht : t ∈ scanMarks) (hb : '\\' ≠ t) {plain : Bool} {c : Char}
    (hp : plain = true → isNameChar c = true) (rest : List Char) :
    balanced n t [] ((nameCharText plain c).toList ++ rest) = balanced n t [] rest := by
  rw [nameCharText_toList]
  split
  · rename_i hplain
    exact balanced_quiet ht (notMem_scanMarks_of_isNameChar (hp hplain)) rest
  · split
    · exact balanced_escaped hb c rest
    · rw [List.append_assoc, List.singleton_append]
      exact balanced_hexEscape ht hb c rest

theorem balanced_nameRunText (ht : t ∈ scanMarks) (hb : '\\' ≠ t) (cs rest : List Char) :
    balanced n t [] (nameRunText cs ++ rest) = balanced n t [] rest := by
  induction cs with
  | nil => rfl
  | cons c cs ih => rw [nameRunText_cons, List.append_assoc, balanced_nameCharText ht hb id, ih]

theorem balanced_identText (ht : t ∈ scanMarks) (hb : '\\' ≠ t) {i : String}
    (hne : i.toList ≠ []) (rest : List Char) :
    balanced n t [] ((identText i).toList ++ rest) = balanced n t [] rest := by
  obtain ⟨c, cs, hi⟩ := List.exists_cons_of_ne_nil hne
  by_cases hd : c = '-' ∧ cs ≠ []
  · obtain ⟨rfl, hcs⟩ := hd
    obtain ⟨c', cs', rfl⟩ := List.exists_cons_of_ne_nil hcs
    rw [identText_toList_of_dash hi, List.cons_append, balanced_quiet ht (by decide),
      List.append_assoc, balanced_nameCharText ht hb isNameChar_of_isNameStart,
      balanced_nameRunText ht hb]
  · rw [identText_toList_of_start hi hd, List.append_assoc,
      balanced_nameCharText ht hb isNameChar_of_isNameStart, balanced_nameRunText ht hb]

theorem skipQuoted_valueText {v : List Char} (hnul : '\x00' ∉ v) (rest : List Char) :
    skipQuoted '"' (valueText v ++ '"' :: rest) = some rest := by
  induction v with
  | nil => exact skipQuoted_self rest
  | cons c v ih =>
    have hc : c ≠ '\x00' := fun h => hnul (h ▸ List.mem_cons_self ..)
    have hv : '\x00' ∉ v := fun h => hnul (List.mem_cons_of_mem _ h)
    rw [valueText_cons, List.append_assoc, valueCharText_toList]
    split
    · rename_i hq
      have hnl : ¬ (c = '\n' ∨ c = '\r' ∨ c = '\x0c') := by
        rcases hq with rfl | rfl <;> decide
      have hhex : isHexDigit c = false := by
        rcases hq with rfl | rfl <;> decide
      rw [List.cons_append, List.cons_append, List.nil_append,
        skipQuoted_escape (by decide) (escape_literal hnl hhex _), ih hv]
    · split
      · have he : escape ('\\' :: ((hexText c.toNat).toList ++ ' ' :: (valueText v ++ '"' :: rest))) =
            some (c, valueText v ++ '"' :: rest) := escape_hexText hc _
        rw [List.append_assoc, List.singleton_append, List.cons_append,
          skipQuoted_escape (by decide) he, ih hv]
      · rename_i hq _
        have hq' : c ≠ '"' := fun h => hq (.inl h)
        have hb : c ≠ '\\' := fun h => hq (.inr h)
        rw [List.singleton_append, skipQuoted_other hq' hb, ih hv]

theorem balanced_quotedText (hq : n.quotes = true) (ht : '"' ≠ t) {v : String}
    (hnul : '\x00' ∉ v.toList) (rest : List Char) :
    balanced n t [] ((quotedText v).toList ++ rest) = balanced n t [] rest := by
  rw [quotedText_toList, List.cons_append, balanced_quote (fun h => ht h.2) (by decide)
    ⟨.inl rfl, hq⟩, List.append_assoc, List.singleton_append, skipQuoted_valueText hnul,
    Option.bind_some]

end Scan

theorem skipBlanks_cons {c : Char} (hc : isBlank c = false) (rest : List Char) :
    skipBlanks (c :: rest) = c :: rest := by
  simp [skipBlanks, hc]

theorem skipBlanks_identText {i : String} (hne : i.toList ≠ []) (rest : List Char) :
    skipBlanks ((identText i).toList ++ rest) = (identText i).toList ++ rest := by
  obtain ⟨d, t, hd, hl⟩ := identText_head hne
  rw [hd, List.cons_append, skipBlanks_cons (isBlank_of_leadsName hl)]

def opText (op : AttrOp) (v : String) : List Char :=
  if op = .present then [] else op.symbol.toList ++ (quotedText v).toList

def flagText (caseless : Bool) : List Char := if caseless then [' ', 'i'] else []

/-- The text between an attribute selector's brackets. -/
def attrText (i : String) (op : AttrOp) (v : String) (caseless : Bool) : List Char :=
  (identText i).toList ++ (opText op v ++ flagText caseless)

theorem render_attribute (op : AttrOp) (caseless : Bool) (i : String) (arg : Option String) :
    ({ kind := .attribute op caseless, ident := i, arg := arg } : Part).render.toList =
      '[' :: (attrText i op (arg.getD "") caseless ++ [']']) := by
  simp only [Part.render, attrText, opText, flagText, Part.argText]
  split <;> cases caseless <;> simp

theorem ne_present_of_mem {op : AttrOp} (hop : op ∈ AttrOp.valued) : op ≠ .present := by
  rintro rfl
  exact absurd hop (by decide)

theorem symbol_head {op : AttrOp} (hop : op ≠ .present) :
    ∃ d t, op.symbol.toList = d :: t ∧ d ∈ ['=', '!', '^', '$', '|', '*', '~'] := by
  cases op <;> simp_all [AttrOp.symbol]

theorem symbol_quiet (op : AttrOp) : ∀ c ∈ op.symbol.toList, c ∉ scanMarks := by
  cases op <;> simp [AttrOp.symbol, scanMarks]

theorem flagText_quiet (caseless : Bool) : ∀ c ∈ flagText caseless, c ∉ scanMarks := by
  cases caseless <;> simp [flagText, scanMarks]

theorem nameUnit_opText (op : AttrOp) (v : String) (caseless : Bool) :
    nameUnit isNameChar (opText op v ++ flagText caseless) = none := by
  by_cases hop : op = .present
  · rw [opText, if_pos hop, List.nil_append]
    cases caseless <;> rfl
  · obtain ⟨d, t, hd, hm⟩ := symbol_head hop
    have : d ≠ '\\' ∧ isNameChar d = false := by
      simp only [List.mem_cons, List.not_mem_nil, or_false] at hm
      rcases hm with rfl | rfl | rfl | rfl | rfl | rfl | rfl <;> decide
    rw [opText, if_neg hop, hd, List.cons_append, List.cons_append]
    simp [nameUnit, this.1, this.2]

theorem attrOperator_quoted {op : AttrOp} (hop : op ≠ .present) (v : String) (rest : List Char) :
    attrOperator (op.symbol.toList ++ ((quotedText v).toList ++ rest)) =
      some (op, (quotedText v).toList ++ rest) := by
  rw [quotedText_toList, List.cons_append]
  cases op <;> simp_all [attrOperator, AttrOp.valued, AttrOp.symbol]

theorem skipBlanks_symbol {op : AttrOp} (hop : op ≠ .present) (rest : List Char) :
    skipBlanks (op.symbol.toList ++ rest) = op.symbol.toList ++ rest := by
  obtain ⟨d, t, hd, hm⟩ := symbol_head hop
  have : isBlank d = false := by
    simp only [List.mem_cons, List.not_mem_nil, or_false] at hm
    rcases hm with rfl | rfl | rfl | rfl | rfl | rfl | rfl <;> decide
  rw [hd, List.cons_append, skipBlanks_cons this]

theorem skipBlanks_quotedText (v : String) (rest : List Char) :
    skipBlanks ((quotedText v).toList ++ rest) = (quotedText v).toList ++ rest := by
  rw [quotedText_toList, List.cons_append, skipBlanks_cons (by decide)]

theorem balanced_attrText {i v : String} (hne : i.toList ≠ []) (hnul : '\x00' ∉ v.toList)
    (op : AttrOp) (caseless : Bool) (rest : List Char) :
    balanced attributeNesting ']' [] (attrText i op v caseless ++ ']' :: rest) =
      some (']' :: rest) := by
  have ht : ']' ∈ scanMarks := by decide
  have hb : '\\' ≠ ']' := by decide
  rw [attrText, List.append_assoc, balanced_identText ht hb hne, List.append_assoc]
  unfold opText
  split
  · rw [List.nil_append, balanced_quiet_append ht (flagText_quiet caseless)]
    exact balanced_stop rfl rest
  · rw [List.append_assoc, balanced_quiet_append ht (symbol_quiet op),
      balanced_quotedText rfl (by decide) hnul, balanced_quiet_append ht (flagText_quiet caseless)]
    exact balanced_stop rfl rest

theorem attributeBody_present {i : String} (hne : i.toList ≠ []) (hnul : '\x00' ∉ i.toList)
    (v : String) (caseless : Bool) :
    attributeBody (attrText i .present v caseless) =
      .ok { kind := .attribute .present caseless, ident := i } := by
  unfold attributeBody attrText
  dsimp only
  rw [skipBlanks_identText hne, identifier_identText hne hnul (nameUnit_opText _ _ _)]
  simp only [opText, if_true, List.nil_append]
  cases caseless <;> rfl

theorem attributeBody_valued {i v : String} (hne : i.toList ≠ []) (hnul : '\x00' ∉ i.toList)
    (hnulv : '\x00' ∉ v.toList) {op : AttrOp} (hop : op ≠ .present) (caseless : Bool) :
    attributeBody (attrText i op v caseless) =
      .ok { kind := .attribute op caseless, ident := i, arg := some v } := by
  unfold attributeBody attrText
  dsimp only
  rw [skipBlanks_identText hne, identifier_identText hne hnul (nameUnit_opText _ _ _)]
  simp only [opText, if_neg hop, List.append_assoc]
  rw [skipBlanks_symbol hop, attrOperator_quoted hop]
  simp only
  rw [skipBlanks_quotedText, quoted_quotedText hnulv]
  cases caseless <;> rfl

/-- A pseudo argument as written: in parentheses, or nothing. -/
def parenText : Option String → List Char
  | some a => '(' :: (a.toList ++ [')'])
  | none => []

theorem render_pseudoClass (i : String) (arg : Option String) :
    ({ kind := .pseudoClass, ident := i, arg := arg } : Part).render.toList =
      ':' :: ((identText i).toList ++ parenText arg) := by
  cases arg <;> simp [Part.render, Part.render.parenthesised, parenText]

theorem render_pseudoElement (i : String) (arg : Option String) :
    ({ kind := .pseudoElement, ident := i, arg := arg } : Part).render.toList =
      ':' :: ':' :: ((identText i).toList ++ parenText arg) := by
  cases arg <;> simp [Part.render, Part.render.parenthesised, parenText]

theorem nameUnit_parenText {arg : Option String} {r : List Char} (hr : PartEnd r) :
    nameUnit isNameChar (parenText arg ++ r) = none := by
  cases arg with
  | some a =>
    have : isNameChar '(' = false := by decide
    simp [parenText, nameUnit, this]
  | none => exact hr.nameUnit_none

/-- A written pseudo selector reads back through the same decisions the reader made: a
single colon looks the name up among the built-in pseudo-classes, and a name that is not
built in must have the custom shape. -/
theorem pseudoPart_written (element : Bool) {w : String} (hne : w.toList ≠ [])
    (hnul : '\x00' ∉ w.toList) {arg : Option String} (ha : ArgText arg) {r : List Char}
    (hr : PartEnd r) (size : Nat) (f : Failure) :
    (pseudoPart size
        (':' :: ((if element then [':'] else []) ++ ((identText w).toList ++ (parenText arg ++ r))))
        f).1 =
      (if element then none else PseudoClass.ofName? w).elim
        (if customShape w then
          some ({ kind := if element then .pseudoElement else .pseudoClass, ident := w, arg := arg }, r)
        else none)
        (fun q => some ({ kind := .pseudoClass, ident := q.name, arg := arg }, r)) := by
  obtain ⟨d, t, hd, hl⟩ := identText_head hne
  have hcolon : d ≠ ':' := ne_of_leadsName hl (by decide)
  unfold pseudoPart
  generalize hpre : (if element = true then [':'] else []) = pre
  rw [List.drop_one, List.tail_cons]
  split
  rename_i element' body hsplit
  -- a second colon is read as the element's, and a name never starts with a colon
  obtain ⟨rfl, rfl⟩ : element' = element ∧ body = (identText w).toList ++ (parenText arg ++ r) := by
    cases element
    · rw [← hpre, if_neg Bool.false_ne_true, List.nil_append, hd, List.cons_append] at hsplit
      simp only [List.cons.injEq, hcolon, false_and, false_implies, implies_true] at hsplit
      rw [← List.cons_append, ← hd, Prod.mk.injEq] at hsplit
      exact ⟨hsplit.1.symm, hsplit.2.symm⟩
    · rw [← hpre, if_pos rfl, List.singleton_append] at hsplit
      simp only [Prod.mk.injEq] at hsplit
      exact ⟨hsplit.1.symm, hsplit.2.symm⟩
  simp only
  rw [identifier_identText hne hnul (nameUnit_parenText hr)]
  simp only
  -- the argument is read back by `nested`, or is absent and nothing opens one
  cases arg
  case' some a =>
    have ha' : nested argumentNesting ')' (a.toList ++ ')' :: r) = some (a, ')' :: r) := ha r
    simp only [parenText, List.cons_append, List.append_assoc, List.nil_append, ha',
      Option.map_some, List.drop_succ_cons, List.drop_zero]
  case' none =>
    cases r
    case' nil => simp only [parenText, List.nil_append]
    case' cons c r =>
      have hc : c ≠ '(' := fun h => hr.not_paren (by rw [h]; rfl)
      simp only [parenText, List.nil_append, List.cons.injEq, hc, false_and, false_implies,
        implies_true]
  all_goals
    generalize (if element' = true then none else PseudoClass.ofName? w) = o
    cases o
    · simp only [Option.elim]
      split <;> rfl
    · rfl

theorem PseudoClass.ofName?_name (q : PseudoClass) : PseudoClass.ofName? q.name = some q := by
  cases q <;> decide

theorem PseudoClass.name_ne (q : PseudoClass) : q.name.toList ≠ [] := by
  cases q <;> decide

theorem customShape_ne {w : String} (hw : customShape w = true) : w.toList ≠ [] := by
  intro h
  rw [customShape, h] at hw
  cases hw

theorem render_typeName (i : String) :
    ({ kind := .typeName, ident := i } : Part).render.toList = (identText i).toList := by
  simp [Part.render]

theorem render_idName (i : String) :
    ({ kind := .idName, ident := i } : Part).render.toList = '#' :: (identText i).toList := by
  simp [Part.render]

theorem render_className (i : String) :
    ({ kind := .className, ident := i } : Part).render.toList = '.' :: (identText i).toList := by
  simp [Part.render]

theorem typePart_render {p : Part} (hp : TypeSel p) (hw : p.Writable) {r : List Char}
    (hr : PartEnd r) : typePart (p.render.toList ++ r) = some (p, r) := by
  cases hp with
  | universal => simp [Part.render, typePart]
  | @typeName i hi =>
    obtain ⟨d, t, hd, hl⟩ := identText_head hi
    have hx : (identText i).toList ++ r = d :: (t ++ r) := by rw [hd, List.cons_append]
    have hstar : d ≠ '*' := ne_of_leadsName hl (by decide)
    rw [render_typeName]
    unfold typePart
    rw [hx]
    simp only [List.cons.injEq, hstar, false_and, false_implies, implies_true]
    rw [← hx, identifier_identText hi hw.1 hr.nameUnit_none]
    rfl

theorem typePart_of_special {p : Part} (hp : Special p) (rest : List Char) :
    typePart (p.render.toList ++ rest) = none := by
  obtain ⟨d, t, hd, hm⟩ := hp.text_head
  rw [hd, List.cons_append]
  simp only [List.mem_cons, List.not_mem_nil, or_false] at hm
  rcases hm with rfl | rfl | rfl | rfl <;> rfl

theorem specialPart_render {p : Part} (hp : Special p) (hw : p.Writable) {r : List Char}
    (hr : PartEnd r) (size : Nat) (f : Failure) :
    (specialPart size (p.render.toList ++ r) f).1 = some (p, r) := by
  cases hp with
  | idName hi =>
    rw [render_idName, List.cons_append]
    simp only [specialPart, prefixedPart, List.drop_succ_cons, List.drop_zero, if_pos,
      name_identText hi hw.1 hr.nameUnit_none]
  | className hi =>
    rw [render_className, List.cons_append]
    simp only [specialPart, prefixedPart, List.drop_succ_cons, List.drop_zero,
      Bool.false_eq_true, if_false, identifier_identText hi hw.1 hr.nameUnit_none]
  | present caseless hi =>
    have hbody := balanced_attrText hi (by decide : '\x00' ∉ ("" : String).toList) .present caseless r
    rw [render_attribute, List.cons_append, List.append_assoc, List.singleton_append]
    simp only [specialPart, attributePart, List.drop_succ_cons, List.drop_zero, Option.getD_none,
      nested_of_balanced hbody, String.toList_ofList, attributeBody_present hi hw.1]
  | @valued i op caseless v hi hop =>
    have hnul : '\x00' ∉ v.toList := hw.2 op caseless rfl
    have hbody := balanced_attrText hi hnul op caseless r
    rw [render_attribute, List.cons_append, List.append_assoc, List.singleton_append]
    simp only [specialPart, attributePart, List.drop_succ_cons, List.drop_zero, Option.getD_some,
      nested_of_balanced hbody, String.toList_ofList,
      attributeBody_valued hi hw.1 hnul (ne_present_of_mem hop)]
  | builtin q ha =>
    have h := pseudoPart_written false (PseudoClass.name_ne q) hw.1 ha hr size f
    simp only [Bool.false_eq_true, if_false, List.nil_append] at h
    rw [render_pseudoClass, List.cons_append, List.append_assoc]
    simp only [specialPart]
    rw [h, PseudoClass.ofName?_name]
    rfl
  | custom hs hq ha =>
    have h := pseudoPart_written false (customShape_ne hs) hw.1 ha hr size f
    simp only [Bool.false_eq_true, if_false, List.nil_append] at h
    rw [render_pseudoClass, List.cons_append, List.append_assoc]
    simp only [specialPart]
    rw [h, hq]
    simp only [Option.elim, hs, if_true]
  | element hs ha =>
    have h := pseudoPart_written true (customShape_ne hs) hw.1 ha hr size f
    simp only [if_true, List.singleton_append] at h
    rw [render_pseudoElement, List.cons_append, List.cons_append, List.append_assoc]
    simp only [specialPart]
    rw [h]
    simp only [Option.elim, hs, if_true]

theorem Special.render_ne {p : Part} (hp : Special p) : p.render.toList ≠ [] := by
  obtain ⟨d, t, hd, -⟩ := hp.text_head
  rw [hd]
  exact List.cons_ne_nil d t

theorem partEnd_specials {ps : List Part} (hps : ∀ p ∈ ps, Special p) {r : List Char}
    (hr : SeqEnd r) : PartEnd (partsText ps ++ r) := by
  cases ps with
  | nil => exact hr.partEnd
  | cons q qs =>
    obtain ⟨d, t, hd, hm⟩ := (hps q (List.mem_cons_self ..)).text_head
    intro c hc
    rw [partsText_cons, hd, List.cons_append, List.cons_append, List.head?_cons,
      Option.mem_def, Option.some.injEq] at hc
    subst hc
    simp only [List.mem_cons, List.not_mem_nil, or_false] at hm ⊢
    rcases hm with rfl | rfl | rfl | rfl <;> simp

theorem specialParts_render {ps : List Part} (hps : ∀ p ∈ ps, Special p ∧ p.Writable)
    {r : List Char} (hr : SeqEnd r) (size : Nat) (f : Failure) :
    (specialParts size (partsText ps ++ r) f).1 = ps ∧
      (specialParts size (partsText ps ++ r) f).2.1 = r := by
  induction ps generalizing f with
  | nil =>
    rw [partsText_nil, List.nil_append, specialParts,
      (Prod.ext (hr.specialPart_none size f) rfl : specialPart size r f = (none, _))]
    exact ⟨rfl, rfl⟩
  | cons p ps ih =>
    obtain ⟨hsp, hw⟩ := hps p (List.mem_cons_self ..)
    have hps' := fun q hq => hps q (List.mem_cons_of_mem _ hq)
    have hend := partEnd_specials (fun q hq => (hps' q hq).1) hr
    have hlen : (partsText ps ++ r).length < (p.render.toList ++ (partsText ps ++ r)).length := by
      have := List.length_pos_iff.mpr hsp.render_ne
      simp only [List.length_append]
      omega
    rw [partsText_cons, List.append_assoc, specialParts,
      (Prod.ext (specialPart_render hsp hw hend size f) rfl :
        specialPart size _ f = (some (p, partsText ps ++ r), _))]
    simp only [if_pos hlen]
    obtain ⟨h1, h2⟩ := ih hps' (specialPart size (p.render.toList ++ (partsText ps ++ r)) f).2
    exact ⟨by rw [h1], h2⟩

theorem sequence_render {ps : List Part} (hs : IsSequence ps) (hw : ∀ p ∈ ps, p.Writable)
    {r : List Char} (hr : SeqEnd r) (size : Nat) (f : Failure) :
    (sequence size (partsText ps ++ r) f).1 = some (ps, r) := by
  obtain ⟨marked, typ, more, ht, hsp, hne⟩ := hs
  obtain ⟨d, t, hd, hsd⟩ := compound_head ht hsp hne
  have hmore : ∀ p ∈ more, Special p ∧ p.Writable :=
    fun p hp => ⟨hsp p hp, hw p (List.mem_append_right _ hp)⟩
  have hcompound : partsText (typ.toList ++ more) ++ r = d :: (t ++ r) := by
    rw [hd, List.cons_append]
  unfold sequence
  split
  rename_i marker r0 hmarker
  -- the marker is read where it was written, and a compound's text never starts with one
  obtain ⟨rfl, rfl⟩ : marker = markerIf marked ∧ r0 = partsText (typ.toList ++ more) ++ r := by
    cases marked
    · rw [markerIf_false, List.nil_append, hcompound] at hmarker
      simp only [List.cons.injEq, hsd.facts.2.1, false_and, false_implies, implies_true,
        Prod.mk.injEq] at hmarker
      exact ⟨hmarker.1.symm, by rw [← hmarker.2, hcompound]⟩
    · have hbang : partsText (markerIf true ++ typ.toList ++ more) ++ r =
          '!' :: (partsText (typ.toList ++ more) ++ r) := by
        simp [subjectPart, Part.render]
      rw [hbang] at hmarker
      simp only [Prod.mk.injEq] at hmarker
      exact ⟨hmarker.1.symm, hmarker.2.symm⟩
  split
  rename_i typ' r1 htyp
  -- the type selector is read when there is one, and a special selector is never read as one
  obtain ⟨rfl, rfl⟩ : typ' = typ.toList ∧ r1 = partsText more ++ r := by
    cases typ with
    | some p =>
      have hend := partEnd_specials (fun q hq => (hmore q hq).1) hr
      rw [Option.toList_some, List.singleton_append, partsText_cons, List.append_assoc,
        typePart_render (ht p rfl) (hw p (by simp)) hend] at htyp
      simp only [Prod.mk.injEq] at htyp
      exact ⟨htyp.1.symm, htyp.2.symm⟩
    | none =>
      obtain ⟨q, qs, rfl⟩ := List.exists_cons_of_ne_nil (hne.resolve_left (by simp))
      rw [Option.toList_none, List.nil_append, partsText_cons, List.append_assoc,
        typePart_of_special (hmore q (List.mem_cons_self ..)).1] at htyp
      simp only [Prod.mk.injEq] at htyp
      exact ⟨htyp.1.symm, by rw [← htyp.2, partsText_cons, List.append_assoc]⟩
  split
  rename_i more' r2 f' hspecials
  obtain ⟨h1, h2⟩ := specialParts_render hmore hr size f
  rw [hspecials] at h1 h2
  subst h1 h2
  -- the sequence holds a type selector or a special one
  rw [if_neg]
  cases typ <;> cases more' <;> simp_all

theorem combinatorParts_render (marked : Bool) (c : Combinator) {d : Char}
    (hd : d = '!' ∨ StartsCompound d) (t : List Char) :
    combinatorParts (partsText (markerIf marked ++ [{ kind := .combinator c }]) ++ d :: t) =
      some (markerIf marked ++ [{ kind := .combinator c }], d :: t) := by
  obtain ⟨hb, h1, h2, h3⟩ := seqHead_facts hd
  have hspace : ∀ rest, skipBlanks (' ' :: rest) = skipBlanks rest := fun rest => by
    simp [skipBlanks, show isBlank ' ' = true by decide]
  cases marked <;> cases c <;>
    simp [combinatorParts, subjectPart, Part.render, Combinator.text, hspace, skipBlanks_cons hb,
      skipBlanks_cons (show isBlank '>' = false by decide),
      skipBlanks_cons (show isBlank '+' = false by decide),
      skipBlanks_cons (show isBlank '~' = false by decide), h1, h2, h3]

theorem IsLinks.seqEnd {ps : List Part} (hl : IsLinks ps) {r : List Char} (hr : SeqEnd r) :
    SeqEnd (partsText ps ++ r) := by
  cases hl with
  | nil => simpa using hr
  | link marked c =>
    intro x hx
    cases marked <;> cases c <;> simp [subjectPart, Part.render, Combinator.text] at hx <;>
      subst hx <;> decide

theorem links_render {ps : List Part} (hl : IsLinks ps) {r : List Char} (hr : r = [] ∨ r = ['!'])
    (size : Nat) :
    (∀ p ∈ ps, p.Writable) → ∀ f, (links size (partsText ps ++ r) f).1 = ps ∧
      (links size (partsText ps ++ r) f).2.1 = r := by
  have hend := seqEnd_closing hr
  induction hl with
  | nil =>
    intro _ f
    have hc : combinatorParts r = none := by rcases hr with rfl | rfl <;> rfl
    rw [partsText_nil, List.nil_append, links, hc]
    exact ⟨rfl, rfl⟩
  | @link marked c seq more hs hl ih =>
    intro hw f
    have hws : ∀ p ∈ seq, p.Writable := fun p hp => hw p (by simp [hp])
    have hwm : ∀ p ∈ more, p.Writable := fun p hp => hw p (by simp [hp])
    obtain ⟨d, t, hd, hsd⟩ := hs.text_head
    have hseq := sequence_render hs hws (hl.seqEnd hend) size f
    have hjoint := combinatorParts_render marked c hsd (t ++ (partsText more ++ r))
    rw [← List.cons_append, ← hd] at hjoint
    have htext : partsText (markerIf marked ++ [{ kind := .combinator c }] ++ seq ++ more) ++ r =
        partsText (markerIf marked ++ [{ kind := .combinator c }]) ++
          (partsText seq ++ (partsText more ++ r)) := by
      simp
    have hlen : (partsText more ++ r).length <
        (partsText (markerIf marked ++ [{ kind := .combinator c }]) ++
          (partsText seq ++ (partsText more ++ r))).length := by
      have := List.length_pos_iff.mpr (show partsText seq ≠ [] by rw [hd]; exact List.cons_ne_nil _ _)
      simp only [List.length_append]
      omega
    rw [htext, links, hjoint]
    simp only
    rw [(Prod.ext hseq rfl : sequence size _ f = (some (seq, partsText more ++ r), _))]
    simp only [if_pos hlen]
    obtain ⟨h1, h2⟩ := ih hwm (sequence size (partsText seq ++ (partsText more ++ r)) f).2
    exact ⟨by rw [h1], h2⟩

theorem readChain_render {combinators : Bool} {parts : List Part} (hc : IsChain combinators parts)
    (hw : ∀ p ∈ parts, p.Writable) : readChain combinators (Chain.render ⟨parts⟩) = .ok ⟨parts⟩ := by
  cases hc with
  | @mk first more trailing hf hl hcm ht =>
  have hwf : ∀ p ∈ first, p.Writable := fun p hp => hw p (by simp [hp])
  have hwm : ∀ p ∈ more, p.Writable := fun p hp => hw p (by simp [hp])
  have htrail : partsText (markerIf trailing) = [] ∨ partsText (markerIf trailing) = ['!'] := by
    cases trailing <;> simp [subjectPart, Part.render]
  have hend := seqEnd_closing htrail
  obtain ⟨d, t, hd, hsd⟩ := hf.text_head
  have htext : partsText (first ++ more ++ markerIf trailing) =
      partsText first ++ (partsText more ++ partsText (markerIf trailing)) := by
    simp
  have hskip : skipBlanks (partsText first ++ (partsText more ++ partsText (markerIf trailing))) =
      partsText first ++ (partsText more ++ partsText (markerIf trailing)) := by
    rw [hd, List.cons_append, skipBlanks_cons (seqHead_facts hsd).1]
  unfold readChain
  rw [render_toList]
  dsimp only
  -- without combinators there are no links to read
  have hlinks : ∀ size f, (if combinators = true then
      links size (partsText more ++ partsText (markerIf trailing)) f
      else ([], partsText more ++ partsText (markerIf trailing), f)) =
        (more, partsText (markerIf trailing), (if combinators = true then
          links size (partsText more ++ partsText (markerIf trailing)) f
          else ([], partsText more ++ partsText (markerIf trailing), f)).2.2) := by
    intro size f
    cases combinators
    · obtain rfl := hcm rfl
      simp
    · obtain ⟨h1, h2⟩ := links_render hl htrail size hwm f
      exact Prod.ext h1 (Prod.ext h2 rfl)
  rw [htext, hskip, (Prod.ext (sequence_render hf hwf (hl.seqEnd hend) _ none) rfl :
    sequence _ _ none = (some (first, _), _))]
  simp only
  rw [hlinks]
  simp only
  -- a closing marker was kept only where no marker came before
  cases trailing
  · simp only [markerIf_false, partsText_nil, List.append_nil]
    rfl
  · have hbang : subjectPart.render.toList = ['!'] := by simp [subjectPart, Part.render]
    simp only [markerIf_true, partsText_cons, partsText_nil, List.append_nil, hbang,
      skipBlanks_cons (show isBlank '!' = false by decide), ht rfl, Bool.false_eq_true, if_false]
    rfl

/-- A chain either reader returns reads back from its text as itself, unless a name or an
attribute value holds U+0000. -/
theorem reparse_render_of_writable {s : String} {c : Chain} (hw : ∀ p ∈ c.parts, p.Writable) :
    (Chain.parse s = .ok c → Chain.parse c.render = .ok c) ∧
      (Chain.parseCompound s = .ok c → Chain.parseCompound c.render = .ok c) := by
  obtain ⟨parts⟩ := c
  constructor
  · intro h
    exact readChain_render (readChain_isChain h) hw
  · intro h
    exact readChain_render (readChain_isChain h) hw

theorem eq_ok_of_toOption {ε α : Type} {e : Except ε α} {a : α} (h : e.toOption = some a) :
    e = .ok a := by
  cases e <;> simp_all [Except.toOption]

theorem markedAttribute_reparses :
    ∃ c : Chain, (∀ p ∈ c.parts, p.Writable) ∧ Chain.parse "!a > [c=\"d\" i]:not(e)" = .ok c ∧
      Chain.parse c.render = .ok c := by
  have hp : Chain.parse "!a > [c=\"d\" i]:not(e)" = .ok ⟨[subjectPart,
      { kind := .typeName, ident := "a" }, { kind := .combinator .child },
      { kind := .attribute .equal true, ident := "c", arg := some "d" },
      { kind := .pseudoClass, ident := "not", arg := some "e" }]⟩ :=
    eq_ok_of_toOption (by decide +kernel)
  refine ⟨_, ?hw, hp, (reparse_render_of_writable ?hw).1 hp⟩
  intro p h
  have hn : '\x00' ∉ p.ident.toList ∧ '\x00' ∉ p.argText.toList := by
    revert p
    decide
  exact ⟨hn.1, fun _ _ _ => hn.2⟩

theorem nulName_reparses_replaced :
    Chain.parse "\\\x00" = .ok ⟨[{ kind := .typeName, ident := "\x00" }]⟩ ∧
    Chain.render ⟨[{ kind := .typeName, ident := "\x00" }]⟩ = "\\0 " ∧
    Chain.parse "\\0 " = .ok ⟨[{ kind := .typeName, ident := "\uFFFD" }]⟩ := by
  refine ⟨eq_ok_of_toOption ?_, ?_, eq_ok_of_toOption ?_⟩ <;> decide +kernel

end TreeQuery.Selector

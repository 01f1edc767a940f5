import TreeQuery.Proofs.SelectorGrammar

/-!
# The reader accepts exactly the grammar

`Chain.parse` reads a text exactly when the grammar derives it, with the reader's blanks
ending an escape; CSS 2.1 does not end one with a line tabulation.
-/

namespace TreeQuery.Selector

theorem UnitAt.head {eb accept : Char → Bool} {input rest : List Char} {c : Char}
    (h : UnitAt eb accept input c rest) : ∃ d t, input = d :: t ∧ (d = '\\' ∨ accept d = true) := by
  cases h with
  | plain hc rest => exact ⟨c, rest, rfl, .inr hc⟩
  | escape he =>
    obtain ⟨r, rfl⟩ := he.head
    exact ⟨'\\', r, rfl, .inl rfl⟩

theorem IdentAt.head {eb : Char → Bool} {input rest : List Char} {i : String}
    (h : IdentAt eb input i rest) : ∃ d t, input = d :: t ∧ leadsName d = true := by
  cases h with
  | mk dash hu hr =>
    cases dash with
    | true => exact ⟨'-', _, rfl, rfl⟩
    | false =>
      obtain ⟨d, t, rfl, hd⟩ := hu.head
      refine ⟨d, t, rfl, ?_⟩
      rcases hd with rfl | hd <;> simp [leadsName, *]

theorem RunAt.rest_head {eb accept : Char → Bool} {input cs rest : List Char}
    (h : RunAt eb accept input cs rest) : ∀ c ∈ rest.head?, accept c = false := by
  induction h with
  | stop h =>
    rename_i input
    intro c hc
    cases input with
    | nil => cases hc
    | cons d t =>
      cases Option.some.inj hc
      cases ha : accept c
      · rfl
      · exact absurd (.plain ha t) (h c t)
  | unit _ _ ih => exact ih

theorem IdentAt.rest_head {eb : Char → Bool} {input rest : List Char} {i : String}
    (h : IdentAt eb input i rest) : ∀ c ∈ rest.head?, isNameChar c = false := by
  cases h with
  | mk dash hu hr => exact hr.rest_head

theorem TypeAt.head {eb : Char → Bool} {input rest : List Char} {p : Part}
    (h : TypeAt eb input p rest) : ∃ d t, input = d :: t ∧ (d = '*' ∨ leadsName d = true) := by
  cases h with
  | universal rest => exact ⟨'*', rest, rfl, .inl rfl⟩
  | typeName hi =>
    obtain ⟨d, t, rfl, hd⟩ := hi.head
    exact ⟨d, t, rfl, .inr hd⟩

theorem SpecialAt.head {eb : Char → Bool} {input rest : List Char} {p : Part}
    (h : SpecialAt eb input p rest) : ∃ d t, input = d :: t ∧ d ∈ ['.', '#', '[', ':'] := by
  cases h with
  | idName => exact ⟨_, _, rfl, by decide⟩
  | className => exact ⟨_, _, rfl, by decide⟩
  | attr h =>
    cases h
    exact ⟨_, _, rfl, by decide⟩
  | pseudo h =>
    cases h <;> exact ⟨_, _, rfl, by decide⟩

theorem SequenceAt.head {eb : Char → Bool} {input rest : List Char} {parts : List Part}
    (h : SequenceAt eb input parts rest) : ∃ d t, input = d :: t ∧ (d = '!' ∨ StartsCompound d) := by
  cases h with
  | typed marked ht hs =>
    cases marked with
    | true => exact ⟨'!', _, rfl, .inl rfl⟩
    | false =>
      obtain ⟨d, t, rfl, hd⟩ := ht.head
      exact ⟨d, t, rfl, .inr (hd.elim .inl (fun h => .inr (.inl h)))⟩
  | untyped marked hs hne =>
    cases marked with
    | true => exact ⟨'!', _, rfl, .inl rfl⟩
    | false =>
      cases hs with
      | nil => exact absurd rfl hne
      | cons h _ =>
        obtain ⟨d, t, rfl, hd⟩ := h.head
        exact ⟨d, t, rfl, .inr (.inr (.inr hd))⟩

section Lengths

variable {eb : Char → Bool}

theorem BlanksAt.length_le {input rest : List Char} (h : BlanksAt input rest) :
    rest.length ≤ input.length := by
  obtain ⟨bs, rfl, -⟩ := h
  simp

theorem EscapeEnd.length_le {after rest : List Char} (h : EscapeEnd eb after rest) :
    rest.length ≤ after.length := by
  cases h with
  | crlf rest =>
    simp only [List.length_cons]
    omega
  | blank => exact Nat.le_succ _
  | bare => exact Nat.le_refl _

theorem EscapeAt.length_lt {input rest : List Char} {c : Char} (h : EscapeAt eb input c rest) :
    rest.length < input.length := by
  cases h with
  | hex _ _ _ _ he =>
    have := he.length_le
    simp only [List.length_cons, List.length_append]
    omega
  | char =>
    simp only [List.length_cons]
    omega

theorem UnitAt.length_lt {accept : Char → Bool} {input rest : List Char} {c : Char}
    (h : UnitAt eb accept input c rest) : rest.length < input.length := by
  cases h with
  | plain => simp
  | escape he => exact he.length_lt

theorem RunAt.length_le {accept : Char → Bool} {input cs rest : List Char}
    (h : RunAt eb accept input cs rest) : rest.length ≤ input.length := by
  induction h with
  | stop => exact Nat.le_refl _
  | unit hu _ ih => exact ih.trans hu.length_lt.le

theorem IdentAt.length_lt {input rest : List Char} {i : String} (h : IdentAt eb input i rest) :
    rest.length < input.length := by
  cases h with
  | mk dash hu hr =>
    have := hr.length_le.trans_lt hu.length_lt
    cases dash <;> simp <;> omega

theorem NameAt.length_lt {input rest : List Char} {n : String} (h : NameAt eb input n rest) :
    rest.length < input.length := by
  cases h with
  | mk hr hne =>
    cases hr with
    | stop => exact absurd rfl hne
    | unit hu hr => exact hr.length_le.trans_lt hu.length_lt

theorem ArgAt.length_le {input rest : List Char} {arg : Option String} (h : ArgAt input arg rest) :
    rest.length ≤ input.length := by
  cases h with
  | none => exact Nat.le_refl _
  | some hn =>
    obtain ⟨r, hr, hcs, -⟩ := nested_frame hn
    cases hr
    rw [hcs]
    simp
    omega

theorem SpecialAt.length_lt {input rest : List Char} {p : Part} (h : SpecialAt eb input p rest) :
    rest.length < input.length := by
  cases h with
  | idName h =>
    have := h.length_lt
    simp only [List.length_cons]
    omega
  | className h =>
    have := h.length_lt
    simp only [List.length_cons]
    omega
  | attr h =>
    cases h
    simp
    omega
  | pseudo h =>
    cases h with
    | builtin q hi ha =>
      have := ha.length_le.trans_lt hi.length_lt
      simp only [List.length_cons]
      omega
    | custom hi ha =>
      have := ha.length_le.trans_lt hi.length_lt
      simp only [List.length_cons]
      omega
    | element hi ha =>
      have := ha.length_le.trans_lt hi.length_lt
      simp only [List.length_cons]
      omega

theorem SpecialsAt.length_le {input rest : List Char} {ps : List Part}
    (h : SpecialsAt eb input ps rest) : rest.length ≤ input.length := by
  induction h with
  | nil => exact Nat.le_refl _
  | cons hs _ ih => exact ih.trans hs.length_lt.le

theorem TypeAt.length_lt {input rest : List Char} {p : Part} (h : TypeAt eb input p rest) :
    rest.length < input.length := by
  cases h with
  | universal => simp
  | typeName h => exact h.length_lt

theorem SequenceAt.length_lt {input rest : List Char} {parts : List Part}
    (h : SequenceAt eb input parts rest) : rest.length < input.length := by
  cases h with
  | typed marked ht hs =>
    have := hs.length_le.trans_lt ht.length_lt
    cases marked <;> simp [markText] <;> omega
  | untyped marked hs hne =>
    cases hs with
    | nil => exact absurd rfl hne
    | cons h hs =>
      have := hs.length_le.trans_lt h.length_lt
      cases marked <;> simp [markText] <;> omega

theorem CombinatorAt.length_le {input rest : List Char} {joint : List Part}
    (h : CombinatorAt input joint rest) : rest.length ≤ input.length := by
  cases h with
  | symbol marked hs h₀ h₁ =>
    have h₀' := h₀.length_le
    have h₁' := h₁.length_le
    simp only [List.length_cons] at h₀'
    cases marked <;> simp [markText] <;> omega
  | descendant marked hb h =>
    have := h.length_le
    cases marked <;> simp [markText] <;> omega

end Lengths

theorem BlanksAt.head {input rest : List Char} (h : BlanksAt input rest) :
    ∀ c ∈ input.head?, isBlank c = true ∨ c ∈ rest.head? := by
  obtain ⟨bs, rfl, hbs⟩ := h
  intro c hc
  cases bs with
  | nil => exact .inr hc
  | cons b bs =>
    cases Option.some.inj hc
    exact .inl (hbs c List.mem_cons_self)

/-- What may follow a sequence: nothing, a marker, a blank or a combinator character. -/
def SequenceEnd (r : List Char) : Prop :=
  ∀ c ∈ r.head?, c = '!' ∨ isBlank c = true ∨ c = '>' ∨ c = '+' ∨ c = '~'

theorem TailAt.sequenceEnd {input : List Char} {trailing : Bool} (h : TailAt input trailing) :
    SequenceEnd input := by
  intro c hc
  cases h with
  | plain h =>
    rcases h.head c hc with hb | hb
    · exact .inr (.inl hb)
    · cases hb
  | marked h _ =>
    rcases h.head c hc with hb | hb
    · exact .inr (.inl hb)
    · exact .inl (Option.some.inj hb).symm

theorem combinatorSymbols_facts {s : Char} {c : Combinator} (h : (s, c) ∈ combinatorSymbols) :
    (s = '>' ∨ s = '+' ∨ s = '~') ∧ isBlank s = false ∧ s ≠ '!' := by
  simp only [combinatorSymbols, List.mem_cons, Prod.mk.injEq, List.not_mem_nil, or_false] at h
  rcases h with ⟨rfl, -⟩ | ⟨rfl, -⟩ | ⟨rfl, -⟩ <;> decide

theorem CombinatorAt.sequenceEnd {input rest : List Char} {joint : List Part}
    (h : CombinatorAt input joint rest) : SequenceEnd input := by
  intro c hc
  cases h with
  | symbol marked hs h₀ =>
    cases marked with
    | true => exact .inl (Option.some.inj hc).symm
    | false =>
      rcases h₀.head c hc with hb | hb
      · exact .inr (.inl hb)
      · obtain rfl : _ = c := Option.some.inj hb
        exact .inr (.inr (combinatorSymbols_facts hs).1)
  | descendant marked hb =>
    cases marked with
    | true => exact .inl (Option.some.inj hc).symm
    | false =>
      cases Option.some.inj hc
      exact .inr (.inl hb)

theorem LinksAt.sequenceEnd {eb : Char → Bool} {input rest : List Char} {more : List Part}
    {trailing : Bool} (h : LinksAt eb input more rest) (ht : TailAt rest trailing) :
    SequenceEnd input := by
  cases h with
  | nil => exact ht.sequenceEnd
  | link hc => exact hc.sequenceEnd

theorem SequenceEnd.not_paren {r : List Char} (h : SequenceEnd r) : r.head? ≠ some '(' := by
  intro hp
  exact absurd (h '(' hp) (by decide)

theorem specialPart_of_sequenceEnd {r : List Char} (h : SequenceEnd r) (size : Nat)
    (f : Failure) : specialPart size r f = (none, f) := by
  cases r with
  | nil => rfl
  | cons c r =>
    have hc : c ∉ ['#', '.', '[', ':'] := by
      intro hm
      simp only [List.mem_cons, List.not_mem_nil, or_false] at hm
      rcases hm with rfl | rfl | rfl | rfl <;> exact absurd (h _ rfl) (by decide)
    unfold specialPart
    split <;> simp_all

/-- A balanced scan goes from `input` to `rest` with nothing open, whatever follows. -/
def Passes (n : Nesting) (t : Char) (input rest : List Char) : Prop :=
  ∀ s, balanced n t [] (input ++ s) = balanced n t [] (rest ++ s)

section Passes

variable {n : Nesting} {t : Char}

theorem Passes.refl (input : List Char) : Passes n t input input := fun _ => rfl

theorem Passes.trans {a b c : List Char} (h₁ : Passes n t a b) (h₂ : Passes n t b c) :
    Passes n t a c := fun s => (h₁ s).trans (h₂ s)

theorem passes_quiet (ht : t ∈ scanMarks) {w : List Char} (hw : ∀ c ∈ w, c ∉ scanMarks)
    (rest : List Char) : Passes n t (w ++ rest) rest := fun s => by
  rw [List.append_assoc, balanced_quiet_append ht hw]

theorem notMem_scanMarks_of_isBlank {c : Char} (h : isBlank c = true) : c ∉ scanMarks := by
  intro hm
  simp only [scanMarks, List.mem_cons, List.not_mem_nil, or_false] at hm
  rcases hm with rfl | rfl | rfl | rfl | rfl | rfl | rfl | rfl | rfl | rfl | rfl | rfl <;>
    exact absurd h (by decide)

variable (ht : t ∈ scanMarks)
include ht

theorem BlanksAt.passes {input rest : List Char} (h : BlanksAt input rest) :
    Passes n t input rest := by
  obtain ⟨bs, rfl, hbs⟩ := h
  exact passes_quiet ht (fun c hc => notMem_scanMarks_of_isBlank (hbs c hc)) rest

theorem EscapeEnd.passes {after rest : List Char} (h : EscapeEnd isBlank after rest) :
    Passes n t after rest := by
  cases h with
  | crlf rest => exact passes_quiet ht (w := ['\r', '\n']) (by simp [scanMarks]) rest
  | blank hb => exact passes_quiet ht (w := [_]) (by simpa using notMem_scanMarks_of_isBlank hb) _
  | bare => exact .refl _

theorem OpAt.passes {input rest : List Char} {op : AttrOp} (h : OpAt input op rest) :
    Passes n t input rest := by
  obtain ⟨-, rfl⟩ := h
  exact passes_quiet ht (symbol_quiet op) rest

theorem FlagAt.passes {input : List Char} {caseless : Bool} (h : FlagAt input caseless) :
    Passes n t input [] := by
  cases h with
  | none => exact .refl _
  | @flag c rest hc hb =>
    have hq : ∀ e ∈ [c], e ∉ scanMarks := by
      rcases hc with rfl | rfl <;> simp [scanMarks]
    exact (passes_quiet ht hq rest).trans (hb.passes ht)

variable (hb : '\\' ≠ t)
include hb

theorem EscapeAt.passes {input rest : List Char} {c : Char} (h : EscapeAt isBlank input c rest) :
    Passes n t input rest := by
  cases h with
  | @hex ds after rest hne hlen hd hmax he =>
    obtain ⟨d, ds', rfl⟩ := List.exists_cons_of_ne_nil hne
    -- the backslash hides the first digit, and the other digits are plain
    have hq : Passes n t (ds' ++ after) after := passes_quiet ht (fun e he =>
      notMem_scanMarks_of_isHexDigit (hd e (List.mem_cons_of_mem d he))) after
    refine Passes.trans (fun s => ?_) (hq.trans (he.passes ht))
    simp only [List.cons_append, List.append_assoc]
    rw [balanced_escaped hb]
  | char hc hl rest => exact fun s => balanced_escaped hb c (rest ++ s)

theorem UnitAt.passes {accept : Char → Bool} (hq : ∀ c, accept c = true → c ∉ scanMarks)
    {input rest : List Char} {c : Char} (h : UnitAt isBlank accept input c rest) :
    Passes n t input rest := by
  cases h with
  | plain hc rest => exact passes_quiet ht (w := [c]) (by simpa using hq c hc) rest
  | escape he => exact he.passes ht hb

theorem RunAt.passes {accept : Char → Bool} (hq : ∀ c, accept c = true → c ∉ scanMarks)
    {input cs rest : List Char} (h : RunAt isBlank accept input cs rest) :
    Passes n t input rest := by
  induction h with
  | stop => exact .refl _
  | unit hu _ ih => exact (hu.passes ht hb hq).trans ih

theorem IdentAt.passes {input rest : List Char} {i : String} (h : IdentAt isBlank input i rest) :
    Passes n t input rest := by
  cases h with
  | @mk dash body mid rest cs c hu hr =>
    have hbody : Passes n t body rest :=
      (hu.passes ht hb fun c hc => notMem_scanMarks_of_isNameChar (isNameChar_of_isNameStart hc)).trans
        (hr.passes ht hb fun c hc => notMem_scanMarks_of_isNameChar hc)
    cases dash with
    | true => exact (passes_quiet ht (w := ['-']) (by simp [scanMarks]) body).trans hbody
    | false => exact hbody

theorem NameAt.passes {input rest : List Char} {n' : String} (h : NameAt isBlank input n' rest) :
    Passes n t input rest := by
  cases h with
  | mk hr => exact hr.passes ht hb fun c hc => notMem_scanMarks_of_isNameChar hc

end Passes

theorem EscapeEnd.append {eb : Char → Bool} {after mid : List Char} (h : EscapeEnd eb after mid)
    {d : Char} {r : List Char} (hm : mid = d :: r) (hd : d ≠ '\r') (s : List Char) :
    EscapeEnd eb (after ++ s) (mid ++ s) := by
  subst hm
  cases h with
  | crlf => exact .crlf _
  | blank hb hcrlf => exact .blank hb (by simpa using hcrlf)
  | bare hb hcrlf =>
    refine .bare (by simpa using hb) fun r' heq => ?_
    simp only [List.cons_append, List.cons.injEq] at heq
    exact hd heq.1

theorem EscapeAt.append {eb : Char → Bool} {input mid : List Char} {c : Char}
    (h : EscapeAt eb input c mid) {d : Char} {r : List Char} (hm : mid = d :: r) (hd : d ≠ '\r')
    (s : List Char) : EscapeAt eb (input ++ s) c (mid ++ s) := by
  cases h with
  | @hex ds after rest hne hlen hdig hmax he =>
    -- the text after the digits holds at least the rest, so it is not empty
    have hafter : after ≠ [] := by
      rintro rfl
      cases he with
      | bare => cases hm
    have hmax' : ds.length = 6 ∨ ∀ x ∈ (after ++ s).head?, isHexDigit x = false := by
      rcases hmax with h6 | hnot
      · exact .inl h6
      · obtain ⟨a, as, rfl⟩ := List.exists_cons_of_ne_nil hafter
        exact .inr (by simpa using hnot)
    rw [List.cons_append, List.append_assoc]
    exact .hex hne hlen hdig hmax' (he.append hm hd s)
  | char hc hl => exact .char hc hl _

theorem escape_lineBreak {c : Char} (hc : c = '\n' ∨ c = '\r' ∨ c = '\x0c') (rest : List Char) :
    escape ('\\' :: c :: rest) = none := by
  rw [escape, if_pos hc]

section Strings

variable {q : Char} (hq : q = '"' ∨ q = '\x27')
include hq

theorem StringBodyAt.head {eb : Char → Bool} {input cs rest : List Char}
    (h : StringBodyAt eb q input cs rest) : ∃ d t, input = d :: t ∧ d ≠ '\r' := by
  cases h with
  | close => exact ⟨q, _, rfl, by rcases hq with rfl | rfl <;> decide⟩
  | plain _ _ hl => exact ⟨_, _, rfl, fun h => hl (.inr (.inl h))⟩
  | lineBreak => exact ⟨'\\', _, rfl, by decide⟩
  | escape he =>
    obtain ⟨r, rfl⟩ := he.head
    exact ⟨'\\', r, rfl, by decide⟩

theorem StringBodyAt.skipQuoted {input cs rest : List Char}
    (h : StringBodyAt isBlank q input cs rest) (s : List Char) :
    skipQuoted q (input ++ s) = some (rest ++ s) := by
  have hbq : '\\' ≠ q := by rcases hq with rfl | rfl <;> decide
  induction h with
  | close rest => exact skipQuoted_self _
  | plain hcq hb _ _ ih => rw [List.cons_append, skipQuoted_other hcq hb, ih]
  | lineBreak hl _ ih =>
    -- a backslash before a line break starts no escape, and the scan steps over both
    cases hl with
    | lf r =>
      simp only [List.cons_append]
      rw [skipQuoted_stray hbq (escape_lineBreak (.inl rfl) _)]
      exact ih
    | crlf r =>
      simp only [List.cons_append]
      rw [skipQuoted_stray hbq (escape_lineBreak (.inr (.inl rfl)) _), List.drop_one,
        List.tail_cons, skipQuoted_other (by rcases hq with rfl | rfl <;> decide) (by decide)]
      exact ih
    | cr _ =>
      simp only [List.cons_append]
      rw [skipQuoted_stray hbq (escape_lineBreak (.inr (.inl rfl)) _)]
      exact ih
    | ff r =>
      simp only [List.cons_append]
      rw [skipQuoted_stray hbq (escape_lineBreak (.inr (.inr rfl)) _)]
      exact ih
  | escape he hs ih =>
    obtain ⟨d, r, hm, hd⟩ := hs.head hq
    have he' := escape_eq_some_iff.mpr (he.append hm hd s)
    obtain ⟨x, rfl⟩ := he.head
    rw [List.cons_append] at he'
    rw [List.cons_append, skipQuoted_escape hbq he', ih]

end Strings

section Passes

variable {n : Nesting} {t : Char} (ht : t ∈ scanMarks) (hb : '\\' ≠ t)
include ht hb

theorem StringAt.passes (hquotes : n.quotes = true) (htq : t ≠ '"' ∧ t ≠ '\x27')
    {input rest : List Char} {v : String} (h : StringAt isBlank input v rest) :
    Passes n t input rest := by
  cases h with
  | @mk q body cs rest hq hbody =>
    intro s
    have hqt : ¬ (([] : List Char).isEmpty = true ∧ q = t) := by
      rintro ⟨-, rfl⟩
      rcases hq with rfl | rfl
      · exact htq.1 rfl
      · exact htq.2 rfl
    have hqb : q ≠ '\\' := by rcases hq with rfl | rfl <;> decide
    rw [List.cons_append, balanced_quote hqt hqb ⟨hq, hquotes⟩, hbody.skipQuoted hq s,
      Option.bind_some]

end Passes

theorem AttrBody.passes {body : List Char} {p : Part} (h : AttrBody isBlank body p) :
    Passes attributeNesting ']' body [] := by
  have ht : ']' ∈ scanMarks := by decide
  have hb : '\\' ≠ ']' := by decide
  cases h with
  | present h₀ hi h₁ hf =>
    exact (h₀.passes ht).trans ((hi.passes ht hb).trans ((h₁.passes ht).trans (hf.passes ht)))
  | valued h₀ hi h₁ hop h₃ hv h₅ hf =>
    refine (h₀.passes ht).trans ((hi.passes ht hb).trans ((h₁.passes ht).trans
      ((hop.passes ht).trans ((h₃.passes ht).trans (Passes.trans ?_
        ((h₅.passes ht).trans (hf.passes ht)))))))
    cases hv with
    | ident h => exact h.passes ht hb
    | string h => exact h.passes ht hb rfl (by decide)

theorem nested_attrBody {body : List Char} {p : Part} (h : AttrBody isBlank body p)
    (rest : List Char) :
    nested attributeNesting ']' (body ++ ']' :: rest) = some (String.ofList body, ']' :: rest) := by
  apply nested_of_balanced
  rw [h.passes (']' :: rest), List.nil_append]
  exact balanced_stop rfl rest

theorem BlanksAt.length_lt {input rest : List Char} (h : BlanksAt input rest) (hne : input ≠ rest) :
    rest.length < input.length := by
  obtain ⟨bs, rfl, -⟩ := h
  cases bs with
  | nil => exact absurd rfl hne
  | cons b bs =>
    simp only [List.cons_append, List.length_cons, List.length_append]
    omega

theorem FlagAt.head {r : List Char} {caseless : Bool} (h : FlagAt r caseless) :
    ∀ c ∈ r.head?, c = 'i' ∨ c = 'I' := by
  cases h with
  | none => intro c hc; cases hc
  | flag hc => intro c h; cases Option.some.inj h; exact hc

theorem FlagAt.head_not_blank {r : List Char} {caseless : Bool} (h : FlagAt r caseless) :
    ∀ c ∈ r.head?, isBlank c = false := fun c hc => by
  rcases h.head c hc with rfl | rfl <;> decide

theorem FlagAt.spaced {r₁ r₂ : List Char} (h : FlagAt r₂ true) (hb : BlanksAt r₁ r₂)
    (hn : ∀ c ∈ r₁.head?, isNameChar c = false) : r₂.length < r₁.length := by
  refine hb.length_lt fun heq => ?_
  cases h with
  | flag hc =>
    subst heq
    have := hn _ rfl
    rcases hc with rfl | rfl <;> exact absurd this (by decide)

theorem caseFlag_of_flagAt {cs : List Char} {caseless : Bool} (h : FlagAt cs caseless) :
    caseFlag cs = (caseless, []) := by
  cases h with
  | none => rfl
  | flag hc hb => rw [caseFlag, if_pos ⟨hc, by rw [skipBlanks_of_blanksAt hb (by simp)]; rfl⟩]

theorem flagStep_of_flagAt {allowed : Prop} [Decidable allowed] {cs : List Char}
    {caseless : Bool} (h : FlagAt cs caseless) (ha : caseless = true → allowed) :
    (if allowed then caseFlag cs else (false, cs)) = (caseless, []) := by
  cases h with
  | none => split <;> rfl
  | flag hc hb => rw [if_pos (ha rfl), caseFlag_of_flagAt (.flag hc hb)]

theorem find?_symbol_equals (x : Char) :
    AttrOp.valued.find? (fun op => op.symbol == String.ofList ['=', x]) = none := by
  rw [List.find?_eq_none]
  intro op hop heq
  have hx := congrArg String.toList (beq_iff_eq.mp heq)
  simp only [AttrOp.valued, List.mem_cons, List.not_mem_nil, or_false] at hop
  rcases hop with rfl | rfl | rfl | rfl | rfl | rfl | rfl <;> simp [AttrOp.symbol] at hx

theorem attrOperator_of_opAt {cs rest : List Char} {op : AttrOp} (h : OpAt cs op rest) :
    attrOperator cs = some (op, rest) := by
  obtain ⟨hop, rfl⟩ := h
  simp only [AttrOp.valued, List.mem_cons, List.not_mem_nil, or_false] at hop
  rcases hop with rfl | rfl | rfl | rfl | rfl | rfl | rfl
  case inl =>
    -- a lone `=` is first tried with the character after it, which makes no operator
    cases rest with
    | nil => rfl
    | cons x rest =>
      unfold attrOperator
      dsimp only
      rw [show (AttrOp.equal.symbol.toList ++ x :: rest).take 2 = ['=', x] from rfl,
        find?_symbol_equals]
      rfl
  all_goals simp [attrOperator, AttrOp.valued, AttrOp.symbol]

theorem attrOperator_eq_none {c : Char} (hc : c ∉ ['=', '!', '^', '$', '|', '*', '~'])
    (rest : List Char) : attrOperator (c :: rest) = none := by
  cases h : attrOperator (c :: rest) with
  | none => rfl
  | some o =>
    obtain ⟨hop, heq⟩ := opAt_of_attrOperator (show attrOperator (c :: rest) = some (o.1, o.2) from h)
    obtain ⟨d, t, hd, hm⟩ := symbol_head (ne_present_of_mem hop)
    rw [hd, List.cons_append, List.cons.injEq] at heq
    exact absurd (heq.1 ▸ hm) hc

theorem OpAt.head {input rest : List Char} {op : AttrOp} (h : OpAt input op rest) :
    ∃ d t, input = d :: t ∧ d ∈ ['=', '!', '^', '$', '|', '*', '~'] := by
  obtain ⟨hop, rfl⟩ := h
  obtain ⟨d, t, hd, hm⟩ := symbol_head (ne_present_of_mem hop)
  exact ⟨d, t ++ rest, by rw [hd, List.cons_append], hm⟩

theorem quoted_of_leadsName {d : Char} (hd : leadsName d = true) (rest : List Char) :
    quoted (d :: rest) = none := by
  rw [quoted, if_neg]
  rintro (rfl | rfl) <;> cases hd

theorem ValueAt.head {eb : Char → Bool} {input rest : List Char} {v : String} {q : Bool}
    (h : ValueAt eb input v q rest) : ∃ d t, input = d :: t ∧ isBlank d = false := by
  cases h with
  | ident h =>
    obtain ⟨d, t, rfl, hd⟩ := h.head
    exact ⟨d, t, rfl, isBlank_of_leadsName hd⟩
  | string h =>
    cases h with
    | mk hq => exact ⟨_, _, rfl, by rcases hq with rfl | rfl <;> decide⟩

theorem attributeBody_of_attrBody {body : List Char} {p : Part} (h : AttrBody isBlank body p) :
    attributeBody body = .ok p := by
  cases h with
  | @present r₀ r₁ r₂ attr caseless h₀ hi h₁ hf =>
    obtain ⟨d, t, rfl, hd⟩ := hi.head
    have hr₀ := skipBlanks_of_blanksAt h₀ (by simpa using isBlank_of_leadsName hd)
    have hr₂ := skipBlanks_of_blanksAt h₁ hf.head_not_blank
    have hop : attrOperator r₂ = none := by
      cases hf with
      | none => rfl
      | flag hc => exact attrOperator_eq_none (by rcases hc with rfl | rfl <;> decide) _
    unfold attributeBody
    dsimp only
    rw [hr₀, identifier_eq_some_iff.mpr hi]
    dsimp only
    rw [hr₂, hop]
    dsimp only
    rw [flagStep_of_flagAt hf fun hc => by cases hc; exact hf.spaced h₁ hi.rest_head]
    rfl
  | @valued r₀ r₁ r₂ r₃ r₄ r₅ r₆ attr v op q caseless h₀ hi h₁ hop h₃ hv h₅ hf =>
    obtain ⟨d, t, rfl, hd⟩ := hi.head
    have hr₀ := skipBlanks_of_blanksAt h₀ (by simpa using isBlank_of_leadsName hd)
    obtain ⟨o, ot, rfl, ho⟩ := hop.head
    have ho' : isBlank o = false := by
      simp only [List.mem_cons, List.not_mem_nil, or_false] at ho
      rcases ho with rfl | rfl | rfl | rfl | rfl | rfl | rfl <;> decide
    have hr₂ := skipBlanks_of_blanksAt h₁ (by simpa using ho')
    obtain ⟨x, xt, rfl, hx⟩ := hv.head
    have hr₄ := skipBlanks_of_blanksAt h₃ (by simpa using hx)
    have hr₆ := skipBlanks_of_blanksAt h₅ hf.head_not_blank
    unfold attributeBody
    dsimp only
    rw [hr₀, identifier_eq_some_iff.mpr hi]
    dsimp only
    rw [hr₂, attrOperator_of_opAt hop]
    dsimp only
    rw [hr₄]
    -- a quoted value is read as a string; an identifier is no string
    cases hv with
    | ident h =>
      obtain ⟨d', t', hxt, hd'⟩ := h.head
      obtain ⟨rfl, rfl⟩ := List.cons.inj hxt
      rw [quoted_of_leadsName hd']
      simp only
      rw [identifier_eq_some_iff.mpr h]
      simp only [Option.map_some]
      rw [hr₆, flagStep_of_flagAt hf fun hc => by
        cases hc
        simp [hf.spaced h₅ h.rest_head]]
      rfl
    | string h =>
      rw [quoted_eq_some_iff.mpr h]
      simp only
      rw [hr₆, flagStep_of_flagAt hf fun _ => by simp]
      rfl

theorem attributePart_of_attributeAt {cs rest : List Char} {p : Part}
    (h : AttributeAt isBlank cs p rest) (size : Nat) (f : Failure) :
    (attributePart size cs f).1 = some (p, rest) := by
  cases h with
  | @mk body rest p hbody =>
    unfold attributePart
    rw [show ('[' :: (body ++ ']' :: rest)).drop 1 = body ++ ']' :: rest from rfl,
      nested_attrBody hbody rest]
    simp only [String.toList_ofList, attributeBody_of_attrBody hbody]
    rfl

/-- A pseudo selector is read with the decisions of the grammar: its name is looked up among
the built-in pseudo-classes after a single colon, and otherwise must have the custom shape. -/
theorem pseudoPart_of_identAt (element : Bool) {body r rest : List Char} {written : String}
    {arg : Option String} (hi : IdentAt isBlank body written r) (ha : ArgAt r arg rest)
    (hr : rest.head? ≠ some '(') (size : Nat) (f : Failure) :
    (pseudoPart size (':' :: ((if element then [':'] else []) ++ body)) f).1 =
      (if element then none else PseudoClass.ofName? written).elim
        (if customShape written then
          some ({ kind := if element then .pseudoElement else .pseudoClass, ident := written, arg := arg }, rest)
        else none)
        (fun q => some ({ kind := .pseudoClass, ident := q.name, arg := arg }, rest)) := by
  obtain ⟨d, t, rfl, hd⟩ := hi.head
  have hcolon : d ≠ ':' := ne_of_leadsName hd (by decide)
  unfold pseudoPart
  generalize hpre : (if element = true then [':'] else []) = pre
  rw [List.drop_one, List.tail_cons]
  split
  rename_i element' body' hsplit
  -- a second colon is read as the element's, and a name never starts with a colon
  obtain ⟨rfl, rfl⟩ : element' = element ∧ body' = d :: t := by
    cases element
    · rw [← hpre, if_neg Bool.false_ne_true, List.nil_append] at hsplit
      simp only [List.cons.injEq, hcolon, false_and, false_implies, implies_true,
        Prod.mk.injEq] at hsplit
      exact ⟨hsplit.1.symm, hsplit.2.symm⟩
    · rw [← hpre, if_pos rfl, List.singleton_append] at hsplit
      simp only [Prod.mk.injEq] at hsplit
      exact ⟨hsplit.1.symm, hsplit.2.symm⟩
  simp only
  rw [identifier_eq_some_iff.mpr hi]
  simp only
  -- the argument is what `nested` reads after an opening parenthesis, or is absent
  cases ha
  case' some hn => simp only [hn, Option.map_some, List.drop_one, List.tail_cons]
  case' none =>
    cases r
    case' nil => simp only
    case' cons c r =>
      have hc : c ≠ '(' := fun h => hr (by rw [h]; rfl)
      simp only [List.cons.injEq, hc, false_and, false_implies, implies_true]
  all_goals
    generalize (if element' = true then none else PseudoClass.ofName? written) = o
    cases o
    · simp only [Option.elim]
      split <;> rfl
    · rfl

theorem pseudoPart_of_pseudoAt {cs rest : List Char} {p : Part}
    (h : PseudoAt isBlank cs p rest) (hr : rest.head? ≠ some '(') (size : Nat) (f : Failure) :
    (pseudoPart size cs f).1 = some (p, rest) := by
  cases h with
  | builtin q hi ha hq =>
    have h := pseudoPart_of_identAt false hi ha hr size f
    simp only [Bool.false_eq_true, if_false, List.nil_append] at h
    rw [h, hq]
    rfl
  | custom hi ha hq hw =>
    have h := pseudoPart_of_identAt false hi ha hr size f
    simp only [Bool.false_eq_true, if_false, List.nil_append] at h
    rw [h, hq]
    simp only [Option.elim, hw, if_true]
  | element hi ha hw =>
    have h := pseudoPart_of_identAt true hi ha hr size f
    simp only [if_true, List.singleton_append] at h
    rw [h]
    simp only [Option.elim, hw, if_true]

theorem specialPart_of_specialAt {cs rest : List Char} {p : Part}
    (h : SpecialAt isBlank cs p rest) (hr : rest.head? ≠ some '(') (size : Nat) (f : Failure) :
    (specialPart size cs f).1 = some (p, rest) := by
  cases h with
  | idName h =>
    simp only [specialPart, prefixedPart, List.drop_succ_cons, List.drop_zero, if_true,
      name_eq_some_iff.mpr h]
  | className h =>
    simp only [specialPart, prefixedPart, List.drop_succ_cons, List.drop_zero,
      Bool.false_eq_true, if_false, identifier_eq_some_iff.mpr h]
  | attr h =>
    have h' := attributePart_of_attributeAt h size f
    cases h
    simp only [specialPart]
    exact h'
  | pseudo h =>
    have h' := pseudoPart_of_pseudoAt h hr size f
    cases h <;> simp only [specialPart] <;> exact h'

theorem SpecialsAt.not_paren {eb : Char → Bool} {input rest : List Char} {ps : List Part}
    (h : SpecialsAt eb input ps rest) (hr : SequenceEnd rest) : input.head? ≠ some '(' := by
  cases h with
  | nil => exact hr.not_paren
  | cons h =>
    obtain ⟨d, t, rfl, hd⟩ := h.head
    intro hp
    cases Option.some.inj hp
    exact absurd hd (by decide)

theorem specialParts_of_specialsAt {cs rest : List Char} {ps : List Part}
    (h : SpecialsAt isBlank cs ps rest) (hr : SequenceEnd rest) (size : Nat) (f : Failure) :
    (specialParts size cs f).1 = ps ∧ (specialParts size cs f).2.1 = rest := by
  induction h generalizing f with
  | nil =>
    rw [specialParts, specialPart_of_sequenceEnd hr]
    exact ⟨rfl, rfl⟩
  | @cons input mid rest p ps hp hs ih =>
    have hpart := specialPart_of_specialAt hp (hs.not_paren hr) size f
    rw [specialParts, (Prod.ext hpart rfl : specialPart size input f = (some (p, mid), _))]
    simp only [if_pos hp.length_lt]
    obtain ⟨h1, h2⟩ := ih hr (specialPart size input f).2
    exact ⟨by rw [h1], h2⟩

theorem typePart_of_typeAt {cs rest : List Char} {p : Part} (h : TypeAt isBlank cs p rest) :
    typePart cs = some (p, rest) := by
  cases h with
  | universal => rfl
  | typeName hi =>
    obtain ⟨d, t, rfl, hd⟩ := hi.head
    have hstar : d ≠ '*' := ne_of_leadsName hd (by decide)
    unfold typePart
    simp only [List.cons.injEq, hstar, false_and, false_implies, implies_true]
    rw [identifier_eq_some_iff.mpr hi]
    rfl

theorem typePart_of_specialAt {eb : Char → Bool} {cs rest : List Char} {p : Part}
    (h : SpecialAt eb cs p rest) : typePart cs = none := by
  obtain ⟨d, t, rfl, hd⟩ := h.head
  simp only [List.mem_cons, List.not_mem_nil, or_false] at hd
  rcases hd with rfl | rfl | rfl | rfl <;> rfl

theorem sequence_markText (marked : Bool) {input : List Char} (h : ∀ r, input ≠ '!' :: r)
    (size : Nat) (f : Failure) :
    sequence size (markText marked ++ input) f =
      ((sequence size input f).1.map fun x => (markerIf marked ++ x.1, x.2), (sequence size input f).2) := by
  cases marked with
  | false => simp [markText, markerIf_false]
  | true =>
    unfold sequence
    rcases input with _ | ⟨d, t⟩
    · simp only [markText, if_true, List.singleton_append, markerIf_true]
      split <;> split <;> simp
    · -- with `hd` in the context the unmarked reading falls through its marker case
      have hd : d ≠ '!' := by
        rintro rfl
        exact h t rfl
      simp only [markText, if_true, List.singleton_append, markerIf_true]
      split <;> split <;> simp

theorem combinatorParts_markText (marked : Bool) {input : List Char} (h : ∀ r, input ≠ '!' :: r) :
    combinatorParts (markText marked ++ input) =
      (combinatorParts input).map fun x => (markerIf marked ++ x.1, x.2) := by
  cases marked with
  | false => simp [markText, markerIf_false]
  | true =>
    unfold combinatorParts
    rcases input with _ | ⟨d, t⟩
    · simp only [markText, if_true, List.singleton_append, markerIf_true]
      split <;> simp
    · have hd : d ≠ '!' := by
        rintro rfl
        exact h t rfl
      simp only [markText, if_true, List.singleton_append, markerIf_true]
      split <;> simp

theorem sequence_of_sequenceAt {cs rest : List Char} {parts : List Part}
    (h : SequenceAt isBlank cs parts rest) (hr : SequenceEnd rest) (size : Nat) (f : Failure) :
    (sequence size cs f).1 = some (parts, rest) := by
  cases h with
  | @typed marked input mid rest p more ht hs =>
    -- a type selector never starts with a marker, so the marker is read where the grammar has one
    obtain ⟨e, u, rfl, he⟩ := ht.head
    have hd : e ≠ '!' := by rcases he with rfl | he <;> [decide; exact ne_of_leadsName he rfl]
    rw [sequence_markText marked (fun r h => hd (List.cons.inj h).1)]
    obtain ⟨h1, h2⟩ := specialParts_of_specialsAt hs hr size f
    unfold sequence
    simp only [List.cons.injEq, hd, false_and, false_implies, implies_true, typePart_of_typeAt ht]
    simp [h1, h2]
  | @untyped marked input rest more hs hne =>
    obtain ⟨q, qs, rfl⟩ := List.exists_cons_of_ne_nil hne
    have hq : ∃ mid, SpecialAt isBlank input q mid := by
      cases hs with
      | cons hp => exact ⟨_, hp⟩
    obtain ⟨mid, hq⟩ := hq
    -- nor does a special selector
    obtain ⟨e, u, rfl, he⟩ := hq.head
    have hd : e ≠ '!' := by
      simp only [List.mem_cons, List.not_mem_nil, or_false] at he
      rcases he with rfl | rfl | rfl | rfl <;> decide
    rw [sequence_markText marked (fun r h => hd (List.cons.inj h).1)]
    obtain ⟨h1, h2⟩ := specialParts_of_specialsAt hs hr size f
    unfold sequence
    simp only [List.cons.injEq, hd, false_and, false_implies, implies_true, typePart_of_specialAt hq]
    simp [h1, h2]

theorem combinatorParts_of_combinatorAt {cs rest : List Char} {joint : List Part}
    (h : CombinatorAt cs joint rest) {d : Char} {t : List Char} (hrest : rest = d :: t)
    (hd : d = '!' ∨ StartsCompound d) : combinatorParts cs = some (joint, rest) := by
  obtain ⟨hb, h1, h2, h3⟩ := seqHead_facts hd
  have hskip : ∀ {x}, BlanksAt x rest → skipBlanks x = rest := fun hx =>
    skipBlanks_of_blanksAt hx (by subst hrest; simpa using hb)
  cases h with
  | @symbol marked input mid rest s c hs h₀ h₁ =>
    have hsb := (combinatorSymbols_facts hs).2
    have hs₀ : skipBlanks input = s :: mid := skipBlanks_of_blanksAt h₀ (by simpa using hsb.1)
    -- blanks and combinator characters are no marker, so the marker is read where the grammar has one
    have hbang : ∀ r, input ≠ '!' :: r := by
      rintro r rfl
      rcases h₀.head '!' rfl with h | h
      · exact absurd h (by decide)
      · exact hsb.2 (Option.some.inj h)
    obtain ⟨e, u, rfl⟩ : ∃ e u, input = e :: u := by
      obtain ⟨bs, rfl, -⟩ := h₀
      cases bs <;> exact ⟨_, _, rfl⟩
    have he : e ≠ '!' := fun h => hbang u (h ▸ rfl)
    rw [combinatorParts_markText marked hbang]
    unfold combinatorParts
    -- with `he` in the context the unmarked reading falls through its marker case
    simp only [hs₀]
    simp only [combinatorSymbols, List.mem_cons, Prod.mk.injEq, List.not_mem_nil, or_false] at hs
    rcases hs with ⟨rfl, rfl⟩ | ⟨rfl, rfl⟩ | ⟨rfl, rfl⟩ <;> simp [hskip h₁]
  | @descendant marked b input rest hbl h =>
    have hbang : b ≠ '!' := by
      rintro rfl
      exact absurd hbl (by decide)
    rw [combinatorParts_markText marked fun r h => hbang (List.cons.inj h).1]
    unfold combinatorParts
    simp only [List.cons.injEq, hbang, false_and, false_implies, implies_true]
    rw [skipBlanks_cons_blank hbl, hskip h]
    -- after the blanks comes a sequence, so no combinator character: the blanks are the combinator
    have hlt : rest.length < (b :: input).length := by
      have := h.length_le
      simp only [List.length_cons]
      omega
    subst hrest
    simp only [List.cons.injEq, h1, h2, h3, false_and, false_implies, implies_true, if_pos hlt]
    rfl

theorem BlanksAt.first {x y y' : List Char} {c c' : Char} (h : BlanksAt x (c :: y))
    (h' : BlanksAt x (c' :: y')) (hc : isBlank c = false) (hc' : isBlank c' = false) :
    c = c' ∧ y = y' := by
  have := (skipBlanks_of_blanksAt h (by simpa using hc)).symm.trans
    (skipBlanks_of_blanksAt h' (by simpa using hc'))
  exact List.cons.inj this

theorem SequenceAt.after_marker {eb : Char → Bool} {r rest : List Char} {parts : List Part}
    (h : SequenceAt eb ('!' :: r) parts rest) : ∃ d t, r = d :: t ∧ StartsCompound d := by
  generalize hx : '!' :: r = x at h
  cases h with
  | typed marked ht =>
    obtain ⟨d, t, rfl, hd⟩ := ht.head
    cases marked with
    | true =>
      obtain rfl := (List.cons.inj hx).2
      exact ⟨d, t, rfl, hd.elim .inl (fun h => .inr (.inl h))⟩
    | false =>
      obtain rfl := (List.cons.inj hx).1
      rcases hd with h | h <;> exact absurd h (by decide)
  | untyped marked hs hne =>
    cases hs with
    | nil => exact absurd rfl hne
    | cons hp =>
      obtain ⟨d, t, rfl, hd⟩ := hp.head
      cases marked with
      | true =>
        obtain rfl := (List.cons.inj hx).2
        exact ⟨d, t, rfl, .inr (.inr hd)⟩
      | false =>
        obtain rfl := (List.cons.inj hx).1
        exact absurd hd (by decide)

theorem BlanksAt.isSuffix {x y : List Char} (h : BlanksAt x y) : y <:+ x := by
  obtain ⟨bs, rfl, -⟩ := h
  exact List.suffix_append bs y

theorem CombinatorAt.isSuffix {cs r : List Char} {joint : List Part} (h : CombinatorAt cs joint r) :
    r <:+ cs := by
  cases h with
  | symbol marked hs h₀ h₁ =>
    exact h₁.isSuffix.trans (((List.suffix_cons _ _).trans h₀.isSuffix).trans (List.suffix_append _ _))
  | descendant marked hb h =>
    exact h.isSuffix.trans ((List.suffix_cons _ _).trans (List.suffix_append _ _))

theorem SequenceAt.exists_compound {eb : Char → Bool} {r rest : List Char} {parts : List Part}
    (h : SequenceAt eb r parts rest) : ∃ c ∈ r, StartsCompound c := by
  obtain ⟨d, u, rfl, hd⟩ := h.head
  rcases hd with rfl | hd
  · obtain ⟨e, v, rfl, he⟩ := h.after_marker
    exact ⟨e, by simp, he⟩
  · exact ⟨d, List.mem_cons_self, hd⟩

theorem TailAt.mem {cs : List Char} {t : Bool} (h : TailAt cs t) :
    ∀ c ∈ cs, isBlank c = true ∨ c = '!' := by
  cases h with
  | plain h =>
    obtain ⟨bs, rfl, hbs⟩ := h
    intro c hc
    exact .inl (hbs c (by simpa using hc))
  | marked h hb =>
    obtain ⟨bs, rfl, hbs⟩ := h
    obtain ⟨bs', rfl, hbs'⟩ := hb
    intro c hc
    simp only [List.append_nil, List.mem_append, List.mem_cons] at hc
    rcases hc with hc | rfl | hc
    · exact .inl (hbs c hc)
    · exact .inr rfl
    · exact .inl (hbs' c hc)

theorem TailAt.no_link {eb : Char → Bool} {cs r rest : List Char} {t : Bool}
    {joint parts : List Part} (ht : TailAt cs t) (hc : CombinatorAt cs joint r)
    (hs : SequenceAt eb r parts rest) : False := by
  -- the sequence, inside the tail, starts a compound selector, which is no blank and no marker
  obtain ⟨c, hcr, hcomp⟩ := hs.exists_compound
  rcases ht.mem c (hc.isSuffix.subset hcr) with h | h
  · exact absurd h (by simp [hcomp.facts.1])
  · exact hcomp.facts.2.1 h

theorem links_of_tailAt {cs : List Char} {t : Bool} (ht : TailAt cs t) (size : Nat) (f : Failure) :
    (links size cs f).1 = [] ∧ (links size cs f).2.1 = cs := by
  rw [links]
  split
  · exact ⟨rfl, rfl⟩
  · rename_i joint r hj
    split
    · exact ⟨rfl, rfl⟩
    · rename_i parts rest f' hseq
      exact (ht.no_link (combinatorAt_of_combinatorParts hj) (sequenceAt_of_sequence (by rw [hseq]))).elim

theorem links_of_linksAt {cs rest : List Char} {more : List Part} {t : Bool}
    (h : LinksAt isBlank cs more rest) (ht : TailAt rest t) (size : Nat) (f : Failure) :
    (links size cs f).1 = more ∧ (links size cs f).2.1 = rest := by
  induction h generalizing f with
  | nil => exact links_of_tailAt ht size f
  | @link input mid mid' rest joint seq more hc hs hl ih =>
    obtain ⟨d, u, hdu, hd⟩ := hs.head
    have hseq := sequence_of_sequenceAt hs (hl.sequenceEnd ht) size f
    have hlen : mid'.length < input.length := hs.length_lt.trans_le hc.length_le
    rw [links, combinatorParts_of_combinatorAt hc hdu hd]
    simp only
    rw [(Prod.ext hseq rfl : sequence size mid f = (some (seq, mid'), _))]
    simp only [if_pos hlen]
    obtain ⟨h1, h2⟩ := ih ht (sequence size mid f).2
    exact ⟨by rw [h1, List.append_assoc], h2⟩

theorem readChain_of_selectorText {text : String} {parts : List Part}
    (h : SelectorText isBlank text.toList parts) : readChain true text = .ok ⟨parts⟩ := by
  cases h with
  | @mk r₀ r₁ r₂ first more trailing h₀ hf hl ht =>
    obtain ⟨d, u, hdu, hd⟩ := hf.head
    have hskip : skipBlanks text.toList = r₀ :=
      skipBlanks_of_blanksAt h₀ (by subst hdu; simpa using (seqHead_facts hd).1)
    have hseq := sequence_of_sequenceAt hf (hl.sequenceEnd ht) (utf8Len text.toList) none
    let f := (sequence (utf8Len text.toList) r₀ none).2
    obtain ⟨h1, h2⟩ := links_of_linksAt hl ht (utf8Len text.toList) f
    refine readChain_eq_ok_iff.mpr ⟨first, r₁, f, more, r₂,
      (links (utf8Len text.toList) r₁ f).2.2, trailing, ?_, ?_, ht, rfl⟩
    · rw [hskip]
      exact Prod.ext hseq rfl
    · rw [if_pos rfl]
      exact Prod.ext h1 (Prod.ext h2 rfl)

/-- The reader accepts a text exactly when the grammar derives it, with the reader's blanks
ending a hexadecimal escape; the chain it reads holds the parts of the derivation. -/
theorem parse_eq_ok_iff {text : String} {c : Chain} :
    Chain.parse text = .ok c ↔ SelectorText isBlank text.toList c.parts := by
  constructor
  · exact readChain_selectorText
  · intro h
    rw [Chain.parse, readChain_of_selectorText h]

section Stops

variable {eb : Char → Bool}

theorem SequenceAt.untyped_of_head {d : Char} {t rest : List Char} {parts : List Part}
    (h : SequenceAt eb (d :: t) parts rest) (hbang : d ≠ '!') (htype : ¬ (d = '*' ∨ leadsName d = true)) :
    ∃ more, SpecialsAt eb (d :: t) more rest ∧ more ≠ [] := by
  generalize hx : d :: t = x at h
  cases h with
  | typed marked ht =>
    obtain ⟨e, u, rfl, he⟩ := ht.head
    cases marked with
    | true => exact absurd (List.cons.inj hx).1 hbang
    | false => exact absurd ((List.cons.inj hx).1 ▸ he) htype
  | untyped marked hs hne =>
    cases marked with
    | true => exact absurd (List.cons.inj hx).1 hbang
    | false => exact ⟨_, hs, hne⟩

theorem SpecialsAt.cons_of_ne_nil {input rest : List Char} {ps : List Part}
    (h : SpecialsAt eb input ps rest) (hne : ps ≠ []) :
    ∃ p mid ps', SpecialAt eb input p mid ∧ SpecialsAt eb mid ps' rest := by
  cases h with
  | nil => exact absurd rfl hne
  | cons hp hs => exact ⟨_, _, _, hp, hs⟩

theorem SpecialsAt.eq_of_head {input rest : List Char} {ps : List Part}
    (h : SpecialsAt eb input ps rest) (hc : ∀ c ∈ input.head?, c ∉ ['.', '#', '[', ':']) :
    rest = input := by
  cases h with
  | nil => rfl
  | cons hp =>
    obtain ⟨d, t, rfl, hd⟩ := hp.head
    exact absurd hd (hc d rfl)

theorem SpecialAt.pseudo_of_colon {body rest : List Char} {p : Part}
    (h : SpecialAt eb (':' :: body) p rest) (hbody : body.head? ≠ some ':') :
    ∃ written r arg, IdentAt eb body written r ∧ ArgAt r arg rest := by
  generalize hx : ':' :: body = x at h
  cases h with
  | idName => cases (List.cons.inj hx).1
  | className => cases (List.cons.inj hx).1
  | attr h =>
    cases h
    cases (List.cons.inj hx).1
  | pseudo h =>
    cases h with
    | builtin q hi ha =>
      obtain rfl := (List.cons.inj hx).2
      exact ⟨_, _, _, hi, ha⟩
    | custom hi ha =>
      obtain rfl := (List.cons.inj hx).2
      exact ⟨_, _, _, hi, ha⟩
    | element =>
      obtain rfl := (List.cons.inj hx).2
      exact absurd rfl hbody

theorem ArgAt.eq_of_head {input rest : List Char} {arg : Option String} (h : ArgAt input arg rest)
    (hc : input.head? ≠ Option.some '(') : rest = input := by
  cases h with
  | none => rfl
  | some => exact absurd rfl hc

theorem LinksAt.eq_of_first {input rest t : List Char} {more : List Part} {d : Char}
    (h : LinksAt eb input more rest) (hb : BlanksAt input (d :: t)) (hd : isBlank d = false)
    (hbang : d ≠ '!') (hsym : ¬ (d = '>' ∨ d = '+' ∨ d = '~')) (hstart : ¬ StartsCompound d) :
    rest = input := by
  have hbang' : isBlank '!' = false := by decide
  cases h with
  | nil => rfl
  | link hc hs =>
    cases hc with
    | @symbol marked input' mid rest' s c hsc h₀ =>
      cases marked with
      | true => exact absurd ((BlanksAt.refl _).first hb hbang' hd).1.symm hbang
      | false =>
        obtain ⟨hs, hsb, -⟩ := combinatorSymbols_facts hsc
        obtain ⟨rfl, -⟩ := h₀.first hb hsb hd
        exact absurd hs hsym
    | @descendant marked b input' rest' hbl h' =>
      cases marked with
      | true => exact absurd ((BlanksAt.refl _).first hb hbang' hd).1.symm hbang
      | false =>
        -- the sequence after the blanks would start at `d`
        obtain ⟨e, u, rfl, he⟩ := hs.head
        have heb := (seqHead_facts he).1
        have hto : BlanksAt (b :: input') (e :: u) :=
          BlanksAt.trans ⟨[b], rfl, by simpa using hbl⟩ h'
        obtain ⟨rfl, -⟩ := hto.first hb heb hd
        rcases he with rfl | he
        · exact absurd rfl hbang
        · exact absurd he hstart

theorem TailAt.false_of_first {input t : List Char} {trailing : Bool} {d : Char}
    (h : TailAt input trailing) (hb : BlanksAt input (d :: t)) (hd : isBlank d = false)
    (hbang : d ≠ '!') : False := by
  rcases h.mem d (hb.isSuffix.subset List.mem_cons_self) with h | h
  · exact absurd h (by simp [hd])
  · exact hbang h

end Stops

/-- The reader ends the escape `\41` with the line tabulation after it, which CSS 2.1 does
not count as a blank; so it reads `:a\41` followed by a line tabulation and `(x)` as the
pseudo-class `aA` with the argument `x`, where CSS 2.1 reads `:aA`, a line tabulation that is
no blank, and `(x)`, which no derivation continues with. -/
theorem parse_accepts_tabulation_after_escape :
    Chain.parse ":a\\41\x0b(x)" = .ok ⟨[{ kind := .pseudoClass, ident := "aA", arg := some "x" }]⟩ ∧
      ∀ parts, ¬ SelectorText cssBlank ":a\\41\x0b(x)".toList parts := by
  have htext : ":a\\41\x0b(x)".toList = [':', 'a', '\\', '4', '1', '\x0b', '(', 'x', ')'] := rfl
  -- `aA` with the escape ended by the blank class `eb`, whatever follows
  have hident : ∀ (eb : Char → Bool) {rest : List Char},
      EscapeEnd eb ['\x0b', '(', 'x', ')'] rest → (∀ c ∈ rest.head?, isNameChar c = false ∧ c ≠ '\\') →
      IdentAt eb ['a', '\\', '4', '1', '\x0b', '(', 'x', ')'] "aA" rest := by
    intro eb rest hend hrest
    have hstop : RunAt eb isNameChar rest [] rest := .stop fun c r hu => by
      cases hu with
      | plain hc =>
        rw [(hrest _ rfl).1] at hc
        cases hc
      | escape he =>
        obtain ⟨r', rfl⟩ := he.head
        exact (hrest _ rfl).2 rfl
    have hesc : EscapeAt eb ('\\' :: (['4', '1'] ++ ['\x0b', '(', 'x', ')'])) 'A' rest := by
      have : EscapeAt eb ('\\' :: (['4', '1'] ++ ['\x0b', '(', 'x', ')']))
          (codePoint (hexNumber ['4', '1'])) rest :=
        .hex (by simp) (by simp) (List.all_eq_true.mp rfl) (.inr fun _ h => by cases h; rfl) hend
      rwa [show codePoint (hexNumber ['4', '1']) = 'A' by decide] at this
    have := IdentAt.mk false (.plain (c := 'a') (by decide) _) (.unit (.escape hesc) hstop)
    rwa [show String.ofList ((if false = true then ['-'] else []) ++ ['a', 'A']) = "aA" by decide]
      at this
  constructor
  · -- the reader's derivation: the line tabulation ends the escape
    have hn : nested argumentNesting ')' ['x', ')'] = some ("x", [')']) := by
      have := nested_of_balanced (n := argumentNesting) (w := ['x']) (t := ')') (r := []) (by
        rw [balanced_quiet_append (by decide) fun _ h => by cases List.mem_singleton.mp h; decide]
        exact balanced_stop rfl [])
      rwa [show String.ofList ['x'] = "x" by decide] at this
    have hi := hident isBlank (.blank (by decide) (by decide)) fun _ h => by cases h; decide
    have hs : SelectorText isBlank ":a\\41\x0b(x)".toList
        [{ kind := .pseudoClass, ident := "aA", arg := some "x" }] := by
      rw [htext]
      have := SelectorText.mk (BlanksAt.refl _)
        (SequenceAt.untyped false (.cons (.pseudo (.custom hi (.some hn) (by decide) (by decide)))
          (.nil [])) (List.cons_ne_nil _ _)) (.nil []) (.plain (BlanksAt.refl []))
      simpa [closeMarker_false, markerIf_false, markText] using this
    exact readChain_of_selectorText hs
  · -- no CSS 2.1 derivation: the escape ends before the line tabulation, which nothing takes
    intro parts h
    rw [htext] at h
    cases h with
    | mk h₀ hf hl ht =>
      obtain rfl := h₀.eq_of_head fun _ h => by cases h; rfl
      obtain ⟨more, hs, hne⟩ := hf.untyped_of_head (by decide) (by decide)
      obtain ⟨p, mid, ps, hp, hs'⟩ := hs.cons_of_ne_nil hne
      obtain ⟨written, r, arg, hi, ha⟩ := hp.pseudo_of_colon (by decide)
      obtain ⟨-, rfl⟩ := hi.unique
        (hident cssBlank (.bare (fun _ h => by cases h; rfl) (by simp)) fun _ h => by cases h; decide)
      obtain rfl := ha.eq_of_head (by decide)
      obtain rfl := hs'.eq_of_head fun _ h => by cases h; decide
      have hb : BlanksAt ['\x0b', '(', 'x', ')'] ['(', 'x', ')'] :=
        ⟨['\x0b'], rfl, List.all_eq_true.mp rfl⟩
      obtain rfl := hl.eq_of_first hb (by decide) (by decide) (by decide)
        (by unfold StartsCompound; decide)
      exact ht.false_of_first hb (by decide) (by decide)

end TreeQuery.Selector

import TreeQuery.Proofs.ChainShape
import TreeQuery.Proofs.NthFormula
import Mathlib.Data.List.TakeWhile

/-!
# Tokens of selector text

    ident    -?{nmstart}{nmchar}*
    nmstart  [_a-zA-Z]|{nonascii}|{escape}
    nmchar   [_a-zA-Z0-9-]|{nonascii}|{escape}
    unicode  \\[0-9a-f]{1,6}(\r\n|[ \n\r\t\f])?
    escape   {unicode}|\\[^\n\r\f0-9a-f]

Each token is read as long as it goes; the blanks ending an escape are a parameter `eb`.
-/

namespace TreeQuery.Selector

/-- The blanks CSS 2.1 lets a hexadecimal escape end with: space, line feed, carriage return,
tab and form feed. -/
def cssBlank (c : Char) : Bool := c = ' ' || c = '\n' || c = '\r' || c = '\t' || c = '\x0c'

section Tokens

variable (eb : Char → Bool)

/-- How a hexadecimal escape ends, given the text after its digits: with a CR LF pair, else
with one blank of the class `eb`, else with nothing; the rest is what follows. -/
inductive EscapeEnd : List Char → List Char → Prop
  | crlf (rest : List Char) : EscapeEnd ('\r' :: '\n' :: rest) rest
  | blank {b : Char} {rest : List Char} (hb : eb b = true)
      (hcrlf : ¬ (b = '\r' ∧ rest.head? = some '\n')) : EscapeEnd (b :: rest) rest
  | bare {rest : List Char} (hb : ∀ b ∈ rest.head?, eb b = false)
      (hcrlf : ∀ r, rest ≠ '\r' :: '\n' :: r) : EscapeEnd rest rest

/-- An escape at the front of the input: a backslash and one to six hexadecimal digits, as
many as follow, with the end after them; or a backslash and one other character that is no
line break. -/
inductive EscapeAt : List Char → Char → List Char → Prop
  | hex {ds after rest : List Char} (hne : ds ≠ []) (hlen : ds.length ≤ 6)
      (hd : ∀ d ∈ ds, isHexDigit d = true)
      (hmax : ds.length = 6 ∨ ∀ d ∈ after.head?, isHexDigit d = false)
      (he : EscapeEnd eb after rest) :
      EscapeAt ('\\' :: (ds ++ after)) (codePoint (hexNumber ds)) rest
  | char {c : Char} (hc : isHexDigit c = false) (hl : ¬ (c = '\n' ∨ c = '\r' ∨ c = '\x0c'))
      (rest : List Char) : EscapeAt ('\\' :: c :: rest) c rest

/-- One character of a name at the front of the input: a character of the class, or an
escape. -/
inductive UnitAt (accept : Char → Bool) : List Char → Char → List Char → Prop
  | plain {c : Char} (hc : accept c = true) (rest : List Char) : UnitAt accept (c :: rest) c rest
  | escape {input rest : List Char} {c : Char} (h : EscapeAt eb input c rest) :
      UnitAt accept input c rest

inductive RunAt (accept : Char → Bool) : List Char → List Char → List Char → Prop
  | stop {input : List Char} (h : ∀ c rest, ¬ UnitAt eb accept input c rest) :
      RunAt accept input [] input
  | unit {input mid rest cs : List Char} {c : Char} (hu : UnitAt eb accept input c mid)
      (hr : RunAt accept mid cs rest) : RunAt accept input (c :: cs) rest

/-- An identifier at the front of the input: an optional hyphen, a name-start character, then
name characters for as long as they follow. -/
inductive IdentAt : List Char → String → List Char → Prop
  | mk (dash : Bool) {body mid rest cs : List Char} {c : Char}
      (hu : UnitAt eb isNameStart body c mid) (hr : RunAt eb isNameChar mid cs rest) :
      IdentAt ((if dash then ['-'] else []) ++ body)
        (String.ofList ((if dash then ['-'] else []) ++ c :: cs)) rest

inductive NameAt : List Char → String → List Char → Prop
  | mk {input rest cs : List Char} (hr : RunAt eb isNameChar input cs rest) (hne : cs ≠ []) :
      NameAt input (String.ofList cs) rest

inductive LineBreakAt : List Char → List Char → Prop
  | lf (rest : List Char) : LineBreakAt ('\n' :: rest) rest
  | crlf (rest : List Char) : LineBreakAt ('\r' :: '\n' :: rest) rest
  | cr {rest : List Char} (h : rest.head? ≠ some '\n') : LineBreakAt ('\r' :: rest) rest
  | ff (rest : List Char) : LineBreakAt ('\x0c' :: rest) rest

/-- The body of a string after its opening quote `q`, up to and with its closing quote, with
what it decodes to: characters other than the quote, a backslash and line breaks; a backslash
and a line break, which continue the string and decode to nothing; and escapes. -/
inductive StringBodyAt (q : Char) : List Char → List Char → List Char → Prop
  | close (rest : List Char) : StringBodyAt q (q :: rest) [] rest
  | plain {c : Char} {input cs rest : List Char} (hq : c ≠ q) (hb : c ≠ '\\')
      (hl : ¬ (c = '\n' ∨ c = '\r' ∨ c = '\x0c')) (h : StringBodyAt q input cs rest) :
      StringBodyAt q (c :: input) (c :: cs) rest
  | lineBreak {input mid cs rest : List Char} (hl : LineBreakAt input mid)
      (h : StringBodyAt q mid cs rest) : StringBodyAt q ('\\' :: input) cs rest
  | escape {input mid cs rest : List Char} {c : Char} (he : EscapeAt eb input c mid)
      (h : StringBodyAt q mid cs rest) : StringBodyAt q input (c :: cs) rest

inductive StringAt : List Char → String → List Char → Prop
  | mk {q : Char} {input cs rest : List Char} (hq : q = '"' ∨ q = '\x27')
      (h : StringBodyAt eb q input cs rest) : StringAt (q :: input) (String.ofList cs) rest

end Tokens

theorem dropEscapeBlank_of_head {cs : List Char} (hb : ∀ b ∈ cs.head?, isBlank b = false) :
    dropEscapeBlank cs = cs := by
  cases cs with
  | nil => rfl
  | cons c r => exact dropEscapeBlank_of_not_blank (hb c rfl) r

theorem escapeEnd_iff {after rest : List Char} :
    EscapeEnd isBlank after rest ↔ rest = dropEscapeBlank after := by
  constructor
  · intro h
    cases h with
    | crlf r => rfl
    | blank hb hcrlf => rw [dropEscapeBlank_cons_of_not_crlf hcrlf, if_pos hb]
    | bare hb _ => exact (dropEscapeBlank_of_head hb).symm
  · intro h
    subst h
    cases after with
    | nil => exact .bare (by simp) (by simp)
    | cons c r =>
      by_cases hcr : c = '\r' ∧ r.head? = some '\n'
      · obtain ⟨rfl, hr⟩ := hcr
        obtain ⟨r', rfl⟩ : ∃ r', r = '\n' :: r' := by
          cases r with
          | nil => cases hr
          | cons d r' => exact ⟨r', by rw [Option.some.inj hr]⟩
        exact .crlf r'
      · rw [dropEscapeBlank_cons_of_not_crlf hcr]
        split
        · exact .blank ‹_› hcr
        · refine .bare (by simpa using ‹¬ isBlank c = true›) fun r' h => ?_
          simp only [List.cons.injEq] at h
          exact absurd ⟨h.1, by rw [h.2]; rfl⟩ hcr

theorem take_takeWhile_hex {ds after : List Char} (hlen : ds.length ≤ 6)
    (hd : ∀ d ∈ ds, isHexDigit d = true)
    (hmax : ds.length = 6 ∨ ∀ d ∈ after.head?, isHexDigit d = false) :
    ((ds ++ after).takeWhile isHexDigit).take 6 = ds := by
  rw [List.takeWhile_append_of_pos hd]
  rcases hmax with h6 | hnot
  · rw [List.take_append_of_le_length (by omega), ← h6, List.take_length]
  · have hnil : after.takeWhile isHexDigit = [] := by
      cases after with
      | nil => rfl
      | cons a r => simp [hnot a rfl]
    rw [hnil, List.append_nil, List.take_of_length_le hlen]

theorem hexDigits_split (d : Char) (r : List Char) :
    let ds := ((d :: r).takeWhile isHexDigit).take 6
    d :: r = ds ++ (d :: r).drop ds.length ∧ ds.length ≤ 6 ∧ (∀ x ∈ ds, isHexDigit x = true) ∧
      (ds.length = 6 ∨ ∀ x ∈ ((d :: r).drop ds.length).head?, isHexDigit x = false) := by
  intro ds
  have hpre : ds <+: d :: r := (List.take_prefix _ _).trans (List.takeWhile_prefix _)
  refine ⟨?_, by simp [ds], fun x hx => List.mem_takeWhile_imp (List.mem_of_mem_take hx), ?_⟩
  · conv => lhs; rw [← List.take_append_drop ds.length (d :: r)]
    rw [← List.prefix_iff_eq_take.mp hpre]
  · by_cases h6 : ds.length = 6
    · exact .inl h6
    · -- fewer than six: the digits ran out
      have hall : ds = (d :: r).takeWhile isHexDigit :=
        List.take_of_length_le (by simp [ds] at h6 ⊢; omega)
      rw [hall, drop_length_takeWhile]
      exact .inr (head_dropWhile isHexDigit (d :: r))

theorem escape_eq_some_iff {input rest : List Char} {c : Char} :
    escape input = some (c, rest) ↔ EscapeAt isBlank input c rest := by
  constructor
  · intro h
    unfold escape at h
    split at h
    · rename_i d r
      split at h
      · cases h
      · rename_i hnl
        split at h
        · rename_i hd
          simp only [Option.some.injEq, Prod.mk.injEq] at h
          obtain ⟨rfl, rfl⟩ := h
          obtain ⟨hsplit, hlen, hds, hmax⟩ := hexDigits_split d r
          have hne : ((d :: r).takeWhile isHexDigit).take 6 ≠ [] := by simp [hd]
          generalize ((d :: r).takeWhile isHexDigit).take 6 = ds at hsplit hlen hds hmax hne ⊢
          generalize hafter : (d :: r).drop ds.length = after at hsplit hmax ⊢
          rw [hsplit]
          exact .hex hne hlen hds hmax (escapeEnd_iff.mpr rfl)
        · simp only [Option.some.injEq, Prod.mk.injEq] at h
          obtain ⟨rfl, rfl⟩ := h
          exact .char (by simpa using ‹¬ isHexDigit d = true›) hnl r
    · cases h
  · intro h
    cases h with
    | @hex ds after rest hne hlen hd hmax he =>
      obtain ⟨d, ds', rfl⟩ := List.exists_cons_of_ne_nil hne
      have hdd : isHexDigit d = true := hd d List.mem_cons_self
      have hnl : ¬ (d = '\n' ∨ d = '\r' ∨ d = '\x0c') := by
        rintro (rfl | rfl | rfl) <;> simp [isHexDigit, hexValue] at hdd
      rw [List.cons_append, escape, if_neg hnl, if_pos hdd, ← List.cons_append,
        take_takeWhile_hex hlen hd hmax]
      dsimp only
      rw [List.drop_left, ← escapeEnd_iff.mp he]
    | char hc hl rest => rw [escape, if_neg hl, if_neg (by simp [hc])]

theorem EscapeAt.head {eb : Char → Bool} {input rest : List Char} {c : Char}
    (h : EscapeAt eb input c rest) : ∃ r, input = '\\' :: r := by
  cases h with
  | hex => exact ⟨_, rfl⟩
  | char => exact ⟨_, rfl⟩

section Units

variable {accept : Char → Bool} (hb : accept '\\' = false)
include hb

theorem nameUnit_eq_some_iff {input rest : List Char} {c : Char} :
    nameUnit accept input = some (c, rest) ↔ UnitAt isBlank accept input c rest := by
  constructor
  · intro h
    cases input with
    | nil => cases h
    | cons d r =>
      rw [nameUnit] at h
      split at h
      · exact .escape (escape_eq_some_iff.mp h)
      · split at h
        · cases h
          exact .plain ‹_› _
        · cases h
  · intro h
    cases h with
    | plain hc r =>
      have hne : c ≠ '\\' := fun he => by
        subst he
        rw [hb] at hc
        cases hc
      rw [nameUnit, if_neg hne, if_pos hc]
    | escape he =>
      obtain ⟨r, rfl⟩ := he.head
      rw [nameUnit, if_pos rfl]
      exact escape_eq_some_iff.mpr he

theorem nameUnit_eq_none_iff {input : List Char} :
    nameUnit accept input = none ↔ ∀ c rest, ¬ UnitAt isBlank accept input c rest := by
  constructor
  · intro h c rest hu
    rw [(nameUnit_eq_some_iff hb).mpr hu] at h
    cases h
  · intro h
    cases hn : nameUnit accept input with
    | none => rfl
    | some p => exact absurd ((nameUnit_eq_some_iff hb).mp hn) (h p.1 p.2)

theorem runAt_nameUnits (input : List Char) :
    RunAt isBlank accept input (nameUnits accept input).1 (nameUnits accept input).2 := by
  cases hn : nameUnit accept input with
  | none =>
    rw [nameUnits_of_none hn]
    exact .stop ((nameUnit_eq_none_iff hb).mp hn)
  | some p =>
    rw [nameUnits_of_some hn]
    exact .unit ((nameUnit_eq_some_iff hb).mp hn) (runAt_nameUnits p.2)
termination_by input.length
decreasing_by exact nameUnit_shorter hn

theorem nameUnits_eq_iff {input cs rest : List Char} :
    nameUnits accept input = (cs, rest) ↔ RunAt isBlank accept input cs rest := by
  constructor
  · intro h
    have hr := runAt_nameUnits hb input
    rwa [h] at hr
  · intro h
    induction h with
    | stop h => exact nameUnits_of_none ((nameUnit_eq_none_iff hb).mpr h)
    | unit hu _ ih => rw [nameUnits_of_some ((nameUnit_eq_some_iff hb).mpr hu), ih]

end Units

/-- An identifier's reading after its optional hyphen `dash`. -/
def identAfter (dash body : List Char) : Option (String × List Char) :=
  (nameUnit isNameStart body).map fun p =>
    (String.ofList (dash ++ p.1 :: (nameUnits isNameChar p.2).1), (nameUnits isNameChar p.2).2)

theorem identifier_dash (r : List Char) : identifier ('-' :: r) = identAfter ['-'] r := by
  simp only [identifier, identAfter]
  cases nameUnit isNameStart r <;> rfl

theorem identifier_of_not_dash {input : List Char} (h : ∀ r, input ≠ '-' :: r) :
    identifier input = identAfter [] input := by
  unfold identifier identAfter
  split
  rename_i heq
  split at heq
  · exact (h _ rfl).elim
  · simp only [Prod.mk.injEq] at heq
    obtain ⟨rfl, rfl⟩ := heq
    cases nameUnit isNameStart input <;> rfl

theorem identAfter_eq_some_iff {dash body rest : List Char} {i : String} :
    identAfter dash body = some (i, rest) ↔ ∃ c mid cs, UnitAt isBlank isNameStart body c mid ∧
      RunAt isBlank isNameChar mid cs rest ∧ i = String.ofList (dash ++ c :: cs) := by
  have hs : isNameStart '\\' = false := rfl
  have hc : isNameChar '\\' = false := rfl
  constructor
  · intro h
    obtain ⟨⟨c, mid⟩, hu, he⟩ := Option.map_eq_some_iff.mp h
    simp only [Prod.mk.injEq] at he
    obtain ⟨rfl, rfl⟩ := he
    exact ⟨c, mid, _, (nameUnit_eq_some_iff hs).mp hu, runAt_nameUnits hc mid, rfl⟩
  · rintro ⟨c, mid, cs, hu, hr, rfl⟩
    rw [identAfter, (nameUnit_eq_some_iff hs).mpr hu, Option.map_some,
      (nameUnits_eq_iff hc).mpr hr]

theorem UnitAt.ne_dash {eb : Char → Bool} {body mid : List Char} {c : Char}
    (h : UnitAt eb isNameStart body c mid) : ∀ r, body ≠ '-' :: r := by
  intro r hr
  subst hr
  cases h with
  | plain hc => cases hc
  | escape he =>
    obtain ⟨r', hr'⟩ := he.head
    cases hr'

theorem identifier_eq_some_iff {input rest : List Char} {i : String} :
    identifier input = some (i, rest) ↔ IdentAt isBlank input i rest := by
  constructor
  · intro h
    by_cases hd : ∃ r, input = '-' :: r
    · obtain ⟨r, rfl⟩ := hd
      rw [identifier_dash] at h
      obtain ⟨c, mid, cs, hu, hr, rfl⟩ := identAfter_eq_some_iff.mp h
      exact .mk true hu hr
    · rw [identifier_of_not_dash fun r hr => hd ⟨r, hr⟩] at h
      obtain ⟨c, mid, cs, hu, hr, rfl⟩ := identAfter_eq_some_iff.mp h
      exact .mk false hu hr
  · intro h
    cases h with
    | mk dash hu hr =>
      cases dash with
      | true => exact (identifier_dash _).trans (identAfter_eq_some_iff.mpr ⟨_, _, _, hu, hr, rfl⟩)
      | false =>
        exact (identifier_of_not_dash hu.ne_dash).trans
          (identAfter_eq_some_iff.mpr ⟨_, _, _, hu, hr, rfl⟩)

theorem name_eq_some_iff {input rest : List Char} {n : String} :
    name input = some (n, rest) ↔ NameAt isBlank input n rest := by
  have hc : isNameChar '\\' = false := rfl
  constructor
  · intro h
    unfold name at h
    have hr := runAt_nameUnits hc input
    generalize nameUnits isNameChar input = p at h hr
    obtain ⟨cs, after⟩ := p
    cases cs with
    | nil => cases h
    | cons c cs =>
      simp only [Option.some.injEq, Prod.mk.injEq] at h
      obtain ⟨rfl, rfl⟩ := h
      exact .mk hr (List.cons_ne_nil c cs)
  · intro h
    cases h with
    | mk hr hne =>
      rw [name, (nameUnits_eq_iff hc).mpr hr]
      obtain ⟨c, cs, rfl⟩ := List.exists_cons_of_ne_nil hne
      rfl

theorem dropLineFeed_of_head {cs : List Char} (h : cs.head? ≠ some '\n') :
    dropLineFeed cs = cs := by
  unfold dropLineFeed
  split
  · exact absurd rfl h
  · rfl

theorem lineBreakAt_dropLineFeed (after : List Char) :
    LineBreakAt ('\r' :: after) (dropLineFeed after) := by
  by_cases h : after.head? = some '\n'
  · obtain ⟨r, rfl⟩ : ∃ r, after = '\n' :: r := by
      cases after with
      | nil => cases h
      | cons d r => exact ⟨r, by rw [Option.some.inj h]⟩
    exact .crlf r
  · rw [dropLineFeed_of_head h]
    exact .cr h

section Strings

variable {q : Char} (hq : q ≠ '\\')
include hq

theorem stringBody_lineBreak {input rest : List Char} (h : LineBreakAt input rest) :
    stringBody q ('\\' :: input) = stringBody q rest := by
  cases h with
  | lf r => rw [stringBody.eq_3, if_neg (Ne.symm hq), if_pos rfl]
  | crlf r =>
    rw [stringBody.eq_2, if_neg (Ne.symm hq), if_pos rfl]
    rfl
  | cr h =>
    rw [stringBody.eq_2, if_neg (Ne.symm hq), if_pos rfl, dropLineFeed_of_head h]
  | ff r => rw [stringBody.eq_4, if_neg (Ne.symm hq), if_pos rfl]

theorem stringBodyAt_of_stringBody {input cs rest : List Char}
    (h : stringBody q input = some (cs, rest)) : StringBodyAt isBlank q input cs rest := by
  induction input using stringBody.induct q generalizing cs with
  | case1 => rw [stringBody.eq_1] at h; cases h
  | case2 r =>
    rw [stringBody.eq_def] at h
    simp only [if_true, Option.some.injEq, Prod.mk.injEq] at h
    obtain ⟨rfl, rfl⟩ := h
    exact .close r
  | case3 after _ _ ih =>
    rw [← stringBody_lineBreak hq (lineBreakAt_dropLineFeed after)] at ih
    exact .lineBreak (lineBreakAt_dropLineFeed after) (ih h)
  | case4 after _ _ ih =>
    rw [stringBody_lineBreak hq (.lf after)] at h
    exact .lineBreak (.lf after) (ih h)
  | case5 after _ _ ih =>
    rw [stringBody_lineBreak hq (.ff after)] at h
    exact .lineBreak (.ff after) (ih h)
  | case6 r d after hcr hlf hff _ he _ ih =>
    rw [stringBody.eq_5 _ _ _ hcr hlf hff, if_neg (Ne.symm hq), if_pos rfl] at h
    split at h
    · rename_i d' after' he'
      rw [he] at he'
      cases he'
      obtain ⟨⟨s, r'⟩, hs, heq⟩ := Option.map_eq_some_iff.mp h
      cases heq
      exact .escape (escape_eq_some_iff.mp he) (ih hs)
    · rename_i he'
      rw [he] at he'
      cases he'
  | case7 r hcr hlf hff _ he =>
    rw [stringBody.eq_5 _ _ _ hcr hlf hff, if_neg (Ne.symm hq), if_pos rfl] at h
    split at h
    · rename_i he'
      rw [he] at he'
      cases he'
    · cases h
  | case8 c r hcq hcb hnl =>
    rw [stringBody.eq_def] at h
    simp only [if_neg hcq, if_neg hcb, if_pos hnl] at h
    cases h
  | case9 c r hcq hcb hnl ih =>
    rw [stringBody.eq_def] at h
    simp only [if_neg hcq, if_neg hcb, if_neg hnl] at h
    obtain ⟨⟨s, r'⟩, hs, heq⟩ := Option.map_eq_some_iff.mp h
    cases heq
    exact .plain hcq hcb hnl (ih hs)

theorem stringBody_of_stringBodyAt {input cs rest : List Char}
    (h : StringBodyAt isBlank q input cs rest) : stringBody q input = some (cs, rest) := by
  induction h with
  | close r =>
    rw [stringBody.eq_def]
    simp
  | plain hcq hb hl _ ih => exact stringBody_cons_plain hcq hb hl ih
  | lineBreak hl _ ih => rw [stringBody_lineBreak hq hl, ih]
  | escape he _ ih =>
    have he' := escape_eq_some_iff.mpr he
    obtain ⟨r, rfl⟩ := he.head
    cases r with
    | nil => cases he'
    | cons d r =>
      -- a line break after the backslash would make no escape
      have hnl : ¬ (d = '\r' ∨ d = '\n' ∨ d = '\x0c') := by
        intro hd
        rw [escape, if_pos (by tauto)] at he'
        cases he'
      exact stringBody_cons_escape hq hnl he' ih

end Strings

theorem quoted_eq_some_iff {input rest : List Char} {s : String} :
    quoted input = some (s, rest) ↔ StringAt isBlank input s rest := by
  constructor
  · intro h
    cases input with
    | nil => cases h
    | cons q r =>
      rw [quoted] at h
      split at h
      · rename_i hq
        obtain ⟨⟨cs, r'⟩, hs, heq⟩ := Option.map_eq_some_iff.mp h
        cases heq
        have hb : q ≠ '\\' := by rcases hq with rfl | rfl <;> decide
        exact .mk hq (stringBodyAt_of_stringBody hb hs)
      · cases h
  · intro h
    cases h with
    | @mk q r cs rest hq h =>
      have hb : q ≠ '\\' := by rcases hq with rfl | rfl <;> decide
      rw [quoted, if_pos hq, stringBody_of_stringBodyAt hb h, Option.map_some]

section Unique

variable {eb : Char → Bool}

theorem EscapeEnd.unique {after r₁ r₂ : List Char} (h₁ : EscapeEnd eb after r₁)
    (h₂ : EscapeEnd eb after r₂) : r₁ = r₂ := by
  cases h₁ with
  | crlf =>
    cases h₂ with
    | crlf => rfl
    | blank _ hcrlf => exact absurd ⟨rfl, rfl⟩ hcrlf
    | bare _ hcrlf => exact absurd rfl (hcrlf r₁)
  | blank hb hcrlf =>
    cases h₂ with
    | crlf => exact absurd ⟨rfl, rfl⟩ hcrlf
    | blank => rfl
    | bare hb' => simp [hb] at hb'
  | bare hb hcrlf =>
    cases h₂ with
    | crlf => exact absurd rfl (hcrlf r₂)
    | blank hb' => simp [hb'] at hb
    | bare => rfl

theorem EscapeAt.unique {input r₁ r₂ : List Char} {c₁ c₂ : Char} (h₁ : EscapeAt eb input c₁ r₁)
    (h₂ : EscapeAt eb input c₂ r₂) : c₁ = c₂ ∧ r₁ = r₂ := by
  cases h₁ with
  | @hex ds after rest hne hlen hd hmax he =>
    generalize hx : '\\' :: (ds ++ after) = x at h₂
    cases h₂ with
    | @hex ds' after' rest' hne' hlen' hd' hmax' he' =>
      simp only [List.cons.injEq, true_and] at hx
      -- both read the digits that follow, up to six
      have hds : ds = ds' := by
        rw [← take_takeWhile_hex hlen hd hmax, ← take_takeWhile_hex hlen' hd' hmax', hx]
      subst hds
      obtain rfl := List.append_cancel_left hx
      exact ⟨rfl, he.unique he'⟩
    | char hc =>
      obtain ⟨d, ds', rfl⟩ := List.exists_cons_of_ne_nil hne
      simp only [List.cons_append, List.cons.injEq, true_and] at hx
      rw [← hx.1, hd d List.mem_cons_self] at hc
      cases hc
  | char hc hl =>
    generalize hx : '\\' :: c₁ :: r₁ = x at h₂
    cases h₂ with
    | @hex ds' after' rest' hne' hlen' hd' =>
      obtain ⟨d, ds'', rfl⟩ := List.exists_cons_of_ne_nil hne'
      simp only [List.cons_append, List.cons.injEq, true_and] at hx
      rw [hx.1, hd' d List.mem_cons_self] at hc
      cases hc
    | char =>
      simp only [List.cons.injEq, true_and] at hx
      exact ⟨hx.1, hx.2⟩

variable {accept : Char → Bool} (hb : accept '\\' = false)
include hb

theorem UnitAt.unique {input r₁ r₂ : List Char} {c₁ c₂ : Char}
    (h₁ : UnitAt eb accept input c₁ r₁) (h₂ : UnitAt eb accept input c₂ r₂) :
    c₁ = c₂ ∧ r₁ = r₂ := by
  cases h₁ with
  | plain hc =>
    cases h₂ with
    | plain => exact ⟨rfl, rfl⟩
    | escape he =>
      -- the backslash that starts an escape is no character of a name
      obtain ⟨r, hr⟩ := he.head
      simp only [List.cons.injEq] at hr
      rw [hr.1, hb] at hc
      cases hc
  | escape he =>
    cases h₂ with
    | plain hc =>
      obtain ⟨r, hr⟩ := he.head
      simp only [List.cons.injEq] at hr
      rw [hr.1, hb] at hc
      cases hc
    | escape he' => exact he.unique he'

theorem RunAt.unique {input cs₁ cs₂ r₁ r₂ : List Char} (h₁ : RunAt eb accept input cs₁ r₁)
    (h₂ : RunAt eb accept input cs₂ r₂) : cs₁ = cs₂ ∧ r₁ = r₂ := by
  induction h₁ generalizing cs₂ with
  | stop h =>
    cases h₂ with
    | stop => exact ⟨rfl, rfl⟩
    | unit hu => exact absurd hu (h _ _)
  | unit hu _ ih =>
    cases h₂ with
    | stop h => exact absurd hu (h _ _)
    | unit hu' hr' =>
      obtain ⟨rfl, rfl⟩ := hu.unique hb hu'
      obtain ⟨rfl, rfl⟩ := ih hr'
      exact ⟨rfl, rfl⟩

end Unique

theorem IdentAt.unique {eb : Char → Bool} {input r₁ r₂ : List Char} {i₁ i₂ : String}
    (h₁ : IdentAt eb input i₁ r₁) (h₂ : IdentAt eb input i₂ r₂) : i₁ = i₂ ∧ r₁ = r₂ := by
  have hs : isNameStart '\\' = false := rfl
  have hc : isNameChar '\\' = false := rfl
  cases h₁ with
  | @mk dash body mid rest cs c hu hr =>
    generalize hx : (if dash = true then ['-'] else []) ++ body = x at h₂
    cases h₂ with
    | @mk dash' body' mid' rest' cs' c' hu' hr' =>
      -- a name never starts with a hyphen, so both read the hyphen or neither does
      have hdash : dash = dash' ∧ body = body' := by
        cases dash <;> cases dash' <;> simp only [if_true, Bool.false_eq_true, if_false,
          List.nil_append, List.singleton_append, List.cons.injEq, true_and] at hx
        · exact ⟨rfl, hx⟩
        · exact absurd hx (hu.ne_dash _)
        · exact absurd hx.symm (hu'.ne_dash _)
        · exact ⟨rfl, hx⟩
      obtain ⟨rfl, rfl⟩ := hdash
      obtain ⟨rfl, rfl⟩ := hu.unique hs hu'
      obtain ⟨rfl, rfl⟩ := hr.unique hc hr'
      exact ⟨rfl, rfl⟩

end TreeQuery.Selector

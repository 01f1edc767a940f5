import TreeQuery.Proofs.Balanced
import TreeQuery.Selector.Parse

/-!
# The parts a selector reads

What the reader builds, described without the reader.
-/

namespace TreeQuery.Selector

/-- A pseudo argument as the reader keeps it: text that `nested` reads in front of a closing
parenthesis, whatever follows that parenthesis. -/
def ArgText : Option String → Prop
  | none => True
  | some a => ∀ r, nested argumentNesting ')' (a.toList ++ ')' :: r) = some (a, ')' :: r)

/-- The type selectors a sequence may start with. -/
inductive TypeSel : Part → Prop
  | universal : TypeSel { kind := .universal }
  | typeName {i : String} (hi : i.toList ≠ []) : TypeSel { kind := .typeName, ident := i }

/-- The special selectors the reader builds. -/
inductive Special : Part → Prop
  | idName {i : String} (hi : i.toList ≠ []) : Special { kind := .idName, ident := i }
  | className {i : String} (hi : i.toList ≠ []) : Special { kind := .className, ident := i }
  | present {i : String} (caseless : Bool) (hi : i.toList ≠ []) :
      Special { kind := .attribute .present caseless, ident := i }
  | valued {i : String} {op : AttrOp} (caseless : Bool) (v : String) (hi : i.toList ≠ [])
      (hop : op ∈ AttrOp.valued) :
      Special { kind := .attribute op caseless, ident := i, arg := some v }
  | builtin (q : PseudoClass) {arg : Option String} (ha : ArgText arg) :
      Special { kind := .pseudoClass, ident := q.name, arg := arg }
  | custom {w : String} {arg : Option String} (hw : customShape w = true)
      (hq : PseudoClass.ofName? w = none) (ha : ArgText arg) :
      Special { kind := .pseudoClass, ident := w, arg := arg }
  | element {w : String} {arg : Option String} (hw : customShape w = true) (ha : ArgText arg) :
      Special { kind := .pseudoElement, ident := w, arg := arg }

def markerIf (marked : Bool) : List Part := if marked then [subjectPart] else []

@[simp] theorem markerIf_false : markerIf false = [] := rfl

@[simp] theorem markerIf_true : markerIf true = [subjectPart] := rfl

/-- The parts of one simple selector sequence. -/
inductive IsSequence : List Part → Prop
  | mk (marked : Bool) (typ : Option Part) (more : List Part) (ht : ∀ p ∈ typ, TypeSel p)
      (hs : ∀ p ∈ more, Special p) (hne : typ.isSome ∨ more ≠ []) :
      IsSequence (markerIf marked ++ typ.toList ++ more)

/-- The parts after the first sequence of a chain. -/
inductive IsLinks : List Part → Prop
  | nil : IsLinks []
  | link (marked : Bool) (c : Combinator) {seq more : List Part} (hs : IsSequence seq)
      (hl : IsLinks more) :
      IsLinks (markerIf marked ++ [{ kind := .combinator c }] ++ seq ++ more)

/-- The parts of a chain: no links when combinators are not read, and a closing marker only
when the parts before it hold none. -/
inductive IsChain (combinators : Bool) : List Part → Prop
  | mk {first more : List Part} (trailing : Bool) (hf : IsSequence first) (hl : IsLinks more)
      (hc : combinators = false → more = [])
      (ht : trailing = true → (first ++ more).any (fun p => p.kind == .subject) = false) :
      IsChain combinators (first ++ more ++ markerIf trailing)

theorem identifier_ne {cs rest : List Char} {i : String} (h : identifier cs = some (i, rest)) :
    i.toList ≠ [] := by
  unfold identifier at h
  split at h
  split at h
  · cases h
  · split at h
    simp only [Option.some.injEq, Prod.mk.injEq] at h
    rw [← h.1, String.toList_ofList]
    simp

theorem name_ne {cs rest : List Char} {i : String} (h : name cs = some (i, rest)) :
    i.toList ≠ [] := by
  unfold name at h
  split at h
  · cases h
  · rename_i units after hne _
    simp only [Option.some.injEq, Prod.mk.injEq] at h
    rw [← h.1, String.toList_ofList]
    exact hne

theorem attrOperator_mem {cs rest : List Char} {op : AttrOp}
    (h : attrOperator cs = some (op, rest)) : op ∈ AttrOp.valued := by
  unfold attrOperator at h
  dsimp only at h
  split at h
  · rename_i op' hfind
    cases h
    exact List.mem_of_find?_eq_some hfind
  · split at h
    · rename_i op' hfind
      cases h
      exact List.mem_of_find?_eq_some hfind
    · cases h

theorem typePart_typeSel {cs rest : List Char} {p : Part} (h : typePart cs = some (p, rest)) :
    TypeSel p := by
  unfold typePart at h
  split at h
  · cases h
    exact .universal
  · obtain ⟨⟨i, r⟩, hi, heq⟩ := Option.map_eq_some_iff.mp h
    cases heq
    exact .typeName (identifier_ne hi)

section Specials

variable {size : Nat} {cs rest : List Char} {f : Failure} {p : Part}

theorem prefixedPart_special {isId : Bool} (h : (prefixedPart size isId cs f).1 = some (p, rest)) :
    Special p := by
  unfold prefixedPart at h
  dsimp only at h
  split at h
  · rename_i ident r hread
    simp only [Option.some.injEq, Prod.mk.injEq] at h
    obtain ⟨rfl, -⟩ := h
    cases isId with
    | true => exact .idName (name_ne (by simpa using hread))
    | false => exact .className (identifier_ne (by simpa using hread))
  · cases h

theorem attributeBody_special (h : attributeBody cs = .ok p) : Special p := by
  unfold attributeBody at h
  dsimp only at h
  split at h
  · cases h
  rename_i attr r1 hid
  have hi := identifier_ne hid
  split at h
  · repeat' split at h
    all_goals first
      | cases h; done
      | cases h; exact .present _ hi
  · rename_i op r3 hop
    have hv := attrOperator_mem hop
    repeat' split at h
    all_goals first
      | cases h; done
      | cases h; exact .valued _ _ hi hv

theorem attributePart_special (h : (attributePart size cs f).1 = some (p, rest)) : Special p := by
  unfold attributePart at h
  dsimp only at h
  split at h
  · cases h
  · split at h
    · rename_i hbody
      simp only [Option.some.injEq, Prod.mk.injEq] at h
      obtain ⟨rfl, -⟩ := h
      exact attributeBody_special hbody
    · cases h

theorem argText_of_nested {r2 r3 : List Char} {text : String}
    (h : nested argumentNesting ')' r2 = some (text, r3)) : ArgText (some text) := by
  obtain ⟨_, -, -, hall⟩ := nested_frame h
  exact hall

theorem pseudoPart_special (h : (pseudoPart size cs f).1 = some (p, rest)) : Special p := by
  unfold pseudoPart at h
  split at h
  rename_i element body _
  dsimp only at h
  split at h
  · cases h
  rename_i written r1 _
  -- the argument is either read by `nested` after an opening parenthesis, or absent
  split at h
  · cases h
  rename_i arg r4 hargument
  have harg : ArgText arg := by
    split at hargument
    · obtain ⟨⟨text, r3⟩, hn, heq⟩ := Option.map_eq_some_iff.mp hargument
      cases heq
      exact argText_of_nested hn
    · cases hargument
      trivial
  split at h
  · rename_i q _
    cases h
    exact .builtin q harg
  · rename_i hnone
    split at h
    · rename_i hw
      cases h
      cases element with
      | true => exact .element hw harg
      | false => exact .custom hw (by simpa using hnone) harg
    · cases h

theorem specialPart_special (h : (specialPart size cs f).1 = some (p, rest)) : Special p := by
  unfold specialPart at h
  split at h
  · exact prefixedPart_special h
  · exact prefixedPart_special h
  · exact attributePart_special h
  · exact pseudoPart_special h
  · cases h

end Specials

theorem specialParts_special (size : Nat) (cs : List Char) (f : Failure) :
    ∀ p ∈ (specialParts size cs f).1, Special p := by
  fun_induction specialParts size cs f with
  | case1 cs f q rest f' hq _ ps after f'' hrec ih =>
    intro p hp
    rcases List.mem_cons.mp hp with rfl | hp
    · exact specialPart_special (by rw [hq])
    · exact ih p (by rw [hrec]; exact hp)
  | case2 cs f q rest f' hq _ =>
    intro p hp
    rw [List.mem_singleton.mp hp]
    exact specialPart_special (by rw [hq])
  | case3 => exact fun p hp => absurd hp List.not_mem_nil

theorem sequence_isSequence {size : Nat} {cs : List Char} {f : Failure} {ps : List Part}
    {rest : List Char} (h : (sequence size cs f).1 = some (ps, rest)) : IsSequence ps := by
  unfold sequence at h
  split at h
  rename_i marker r0 hm
  split at h
  rename_i typ r1 ht
  split at h
  rename_i more r2 f' hmore
  split at h
  · cases h
  rename_i hne
  simp only [Option.some.injEq, Prod.mk.injEq] at h
  obtain ⟨rfl, -⟩ := h
  obtain ⟨marked, rfl⟩ : ∃ marked, marker = markerIf marked := by
    split at hm
    · cases hm
      exact ⟨true, rfl⟩
    · cases hm
      exact ⟨false, rfl⟩
  obtain ⟨t, rfl, htyp⟩ : ∃ t : Option Part, typ = t.toList ∧ ∀ p ∈ t, TypeSel p := by
    split at ht
    · rename_i p r hp
      cases ht
      exact ⟨some p, rfl, fun q hq => by cases hq; exact typePart_typeSel hp⟩
    · cases ht
      exact ⟨none, rfl, fun q hq => by cases hq⟩
  have hs : ∀ p ∈ more, Special p := by
    have := specialParts_special size r1 f
    rwa [hmore] at this
  refine IsSequence.mk marked t more htyp hs ?_
  cases t <;> cases more <;> simp_all

theorem combinatorParts_joint {cs rest : List Char} {joint : List Part}
    (h : combinatorParts cs = some (joint, rest)) :
    ∃ marked c, joint = markerIf marked ++ [{ kind := .combinator c }] := by
  unfold combinatorParts at h
  split at h
  rename_i marker r0 hm
  obtain ⟨marked, rfl⟩ : ∃ marked, marker = markerIf marked := by
    split at hm
    · cases hm
      exact ⟨true, rfl⟩
    · cases hm
      exact ⟨false, rfl⟩
  dsimp only at h
  repeat' split at h
  all_goals first
    | cases h; done
    | cases h; exact ⟨marked, _, rfl⟩

theorem links_isLinks (size : Nat) (cs : List Char) (f : Failure) : IsLinks (links size cs f).1 := by
  fun_induction links size cs f with
  | case1 => exact .nil
  | case2 => exact .nil
  | case3 cs f joint r hj parts rest f' hseq _ ps after f'' hrec ih =>
    obtain ⟨marked, c, rfl⟩ := combinatorParts_joint hj
    have hps : (links size rest f').1 = ps := by rw [hrec]
    exact .link marked c (sequence_isSequence (by rw [hseq])) (hps ▸ ih)
  | case4 cs f joint r hj parts rest f' hseq _ =>
    obtain ⟨marked, c, rfl⟩ := combinatorParts_joint hj
    have := IsLinks.link marked c (sequence_isSequence (by rw [hseq])) .nil
    rwa [List.append_nil] at this

theorem readChain_isChain {combinators : Bool} {text : String} {c : Chain}
    (h : readChain combinators text = .ok c) : IsChain combinators c.parts := by
  unfold readChain at h
  dsimp only at h
  split at h
  · cases h
  rename_i first r1 f hseq
  have hf := sequence_isSequence (by rw [hseq])
  generalize hL : (if combinators = true then links (utf8Len text.toList) r1 f else ([], r1, f)) = L
    at h
  obtain ⟨more, r2, f'⟩ := L
  have hl : IsLinks more ∧ (combinators = false → more = []) := by
    cases combinators with
    | true =>
      have := links_isLinks (utf8Len text.toList) r1 f
      simp only [if_true] at hL
      rw [hL] at this
      exact ⟨this, fun h => by cases h⟩
    | false =>
      simp only [Bool.false_eq_true, if_false, Prod.mk.injEq] at hL
      rw [← hL.1]
      exact ⟨.nil, fun _ => rfl⟩
  dsimp only at h
  generalize skipBlanks r2 = s at h
  have hplain : IsChain combinators (first ++ more) := by
    have := IsChain.mk false hf hl.1 hl.2 (fun h => by cases h)
    rwa [markerIf_false, List.append_nil] at this
  -- a closing marker is kept only when the parts before it hold none
  split at h
  · split at h
    · split at h
      · cases h
        exact hplain
      · cases h
    · rename_i hany
      split at h
      · cases h
        exact IsChain.mk true hf hl.1 hl.2 (fun _ => by simpa using hany)
      · cases h
  · split at h
    · cases h
      exact hplain
    · cases h

end TreeQuery.Selector

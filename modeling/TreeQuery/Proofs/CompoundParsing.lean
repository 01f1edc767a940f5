import TreeQuery.Proofs.SelectorParsing

/-!
# Reading one simple selector sequence

The sequence reader accepts exactly the texts the selector reader accepts with a chain free of
combinators, and reads the same chain from them.
-/

namespace TreeQuery.Selector

theorem PartKind.isCombinator_eq_false_iff {k : PartKind} :
    k.isCombinator = false ↔ ∀ c, k ≠ .combinator c := by
  cases k <;> simp [PartKind.isCombinator]

theorem TypeSel.not_combinator {p : Part} (h : TypeSel p) : p.kind.isCombinator = false := by
  cases h <;> rfl

theorem Special.not_combinator {p : Part} (h : Special p) : p.kind.isCombinator = false := by
  cases h <;> rfl

theorem IsSequence.not_combinator {ps : List Part} (h : IsSequence ps) :
    ∀ p ∈ ps, p.kind.isCombinator = false := by
  cases h with
  | mk marked typ more ht hs hne =>
    intro p hp
    simp only [List.mem_append, Option.mem_toList] at hp
    rcases hp with (hp | hp) | hp
    · cases marked <;> simp_all [markerIf, subjectPart, PartKind.isCombinator]
    · exact (ht p hp).not_combinator
    · exact (hs p hp).not_combinator

theorem IsLinks.eq_nil {ps : List Part} (h : IsLinks ps)
    (hc : ∀ p ∈ ps, p.kind.isCombinator = false) : ps = [] := by
  cases h with
  | nil => rfl
  | link marked c hs hl =>
    have := hc { kind := .combinator c } (by simp)
    simp [PartKind.isCombinator] at this

theorem links_rest_of_nil (size : Nat) (cs : List Char) (f : Failure)
    (h : (links size cs f).1 = []) : (links size cs f).2.1 = cs := by
  fun_induction links size cs f with
  | case1 => rfl
  | case2 => rfl
  | case3 cs f joint r hj parts rest f' hseq _ ps after f'' hrec ih =>
    obtain ⟨marked, c, rfl⟩ := combinatorParts_joint hj
    simp at h
  | case4 cs f joint r hj parts rest f' hseq _ =>
    obtain ⟨marked, c, rfl⟩ := combinatorParts_joint hj
    simp at h

theorem mem_closeMarker {parts : List Part} {trailing : Bool} {p : Part}
    (h : p ∈ closeMarker parts trailing) : p ∈ parts ∨ p = subjectPart := by
  unfold closeMarker at h
  split at h
  · simpa using h
  · exact .inl h

theorem mem_closeMarker_of_mem {parts : List Part} {trailing : Bool} {p : Part} (h : p ∈ parts) :
    p ∈ closeMarker parts trailing := by
  unfold closeMarker
  split
  · exact List.mem_append_left _ h
  · exact h

/-- Reading a single simple selector sequence is reading a selector, restricted to the texts
whose chain has no combinator. -/
theorem parseCompound_eq_ok_iff {text : String} {c : Chain} :
    Chain.parseCompound text = .ok c ↔
      Chain.parse text = .ok c ∧ ∀ p ∈ c.parts, ∀ k, p.kind ≠ .combinator k := by
  rw [Chain.parseCompound, Chain.parse, readChain_eq_ok_iff, readChain_eq_ok_iff]
  constructor
  · rintro ⟨first, r₁, f, more, r₂, f', trailing, hseq, hL, ht, rfl⟩
    simp only [Bool.false_eq_true, if_false, Prod.mk.injEq] at hL
    obtain ⟨rfl, rfl, rfl⟩ := hL
    refine ⟨⟨first, r₁, f, [], r₁, (links (utf8Len text.toList) r₁ f).2.2, trailing, hseq,
      ?_, ht, rfl⟩, ?_⟩
    · -- a tail holds no link
      obtain ⟨h₁, h₂⟩ := links_of_tailAt ht (utf8Len text.toList) f
      simp only [if_true]
      exact Prod.ext h₁ (Prod.ext h₂ rfl)
    · intro p hp
      rw [← PartKind.isCombinator_eq_false_iff]
      rcases mem_closeMarker hp with hp | rfl
      · exact (sequence_isSequence (by rw [hseq])).not_combinator p (by simpa using hp)
      · rfl
  · rintro ⟨⟨first, r₁, f, more, r₂, f', trailing, hseq, hL, ht, rfl⟩, hnc⟩
    simp only [if_true] at hL
    have hmore : more = [] := by
      have hl := links_isLinks (utf8Len text.toList) r₁ f
      rw [hL] at hl
      exact hl.eq_nil fun p hp => PartKind.isCombinator_eq_false_iff.mpr
        (hnc p (mem_closeMarker_of_mem (List.mem_append_right _ hp)))
    subst hmore
    have hr : r₂ = r₁ := by
      have := links_rest_of_nil (utf8Len text.toList) r₁ f (by rw [hL])
      rwa [hL] at this
    subst hr
    exact ⟨first, r₂, f, [], r₂, f, trailing, hseq, rfl, ht, rfl⟩

end TreeQuery.Selector

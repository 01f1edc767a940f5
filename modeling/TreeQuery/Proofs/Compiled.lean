import TreeQuery.Selector.Matcher
import Mathlib.Data.List.Induction

/-!
# The shape of a compiled selector

Each part compiles to one step of its kind, and the structural checks leave the steps in the
shape matching relies on.
-/

namespace TreeQuery.Selector

/-- Walking these steps forward, the subject marker comes before every combinator, or there is
no combinator at all. -/
def SubjectLeads (steps : List Step) : Prop :=
  (∀ c, .combinator c ∉ steps) ∨
    ∃ pre post, steps = pre ++ .subject :: post ∧ ∀ c, .combinator c ∉ pre

theorem compilePart_kinds {b : Nat} {p : Part} {s : Step} (h : compilePart b p = .ok s) :
    (s = .subject ↔ p.kind = .subject) ∧
    ((∃ name arg, s = .pseudoElement name arg) ↔ p.kind = .pseudoElement) ∧
    (∀ c, s = .combinator c ↔ p.kind = .combinator c) := by
  rw [compilePart] at h
  split at h <;> rename_i hk
  · cases h; simp [hk]
  · cases h; simp [hk]
  · cases h; simp [hk]
  · cases h; simp [hk]
  · cases h; simp [hk]
  · cases h; simp [hk]
  · cases h; simp [hk]
  · cases h; simp [hk]
  · -- a pseudo-class compiles to a test of the node, whatever it is
    have hs : s ≠ .subject ∧ (∀ name arg, s ≠ .pseudoElement name arg) ∧
        ∀ c, s ≠ .combinator c := by
      repeat' split at h
      all_goals (try cases h)
      all_goals simp
    simp [hk, hs.1, hs.2.1, hs.2.2]

theorem compilePart_negation {b : Nat} {p : Part} {before after : List Step}
    (h : compilePart b p = .ok (.negation before after)) :
    ∃ inner : Matcher, Matcher.parse p.argText = .ok inner ∧ inner.firstPseudoElement = none ∧
      inner.before = before ∧ inner.after = after := by
  rw [compilePart] at h
  -- every branch but the one that compiles the argument gives another step or an error
  repeat' split at h
  all_goals try cases h
  rename_i harg _ _ inner hparse _ hnone
  refine ⟨inner, ?_, hnone, rfl, rfl⟩
  simp only [Part.argText, harg, Option.getD_some]
  exact hparse

theorem compilePart_pseudoElement {b : Nat} {p : Part} {s : Step} (hk : p.kind = .pseudoElement)
    (h : compilePart b p = .ok s) : s = .pseudoElement ("::" ++ p.ident) p.argText := by
  rw [compilePart, hk] at h
  cases h
  rfl

/-- The step a pseudo-class part compiles to, by its name and its argument. -/
inductive PseudoPrepared (p : Part) : Step → Prop
  | structural {pc : PseudoClass} {st : Structural} (hpc : PseudoClass.ofName? p.ident = some pc)
      (hst : pc.structural? = some st) (harg : p.arg = none) : PseudoPrepared p (.structural st)
  | nth {pc : PseudoClass} {count : NthCount} {a : String} {f : Nth}
      (hpc : PseudoClass.ofName? p.ident = some pc) (hcount : pc.nthCount? = some count)
      (harg : p.arg = some a) (hf : Nth.parse? a = some f) : PseudoPrepared p (.nth count f)
  | negation {inner : Matcher} (hpc : PseudoClass.ofName? p.ident = some .negation)
      (hinner : Matcher.parse p.argText = .ok inner) (hnone : inner.firstPseudoElement = none) :
      PseudoPrepared p (.negation inner.before inner.after)
  | custom (hpc : PseudoClass.ofName? p.ident = none) :
      PseudoPrepared p (.custom (":" ++ p.ident) p.argText)

theorem PseudoClass.eq_negation {pc : PseudoClass} (hst : pc.structural? = none)
    (hcount : pc.nthCount? = none) : pc = .negation := by
  cases pc <;> simp_all [PseudoClass.structural?, PseudoClass.nthCount?]

theorem compilePart_pseudoClass {b : Nat} {p : Part} {s : Step} (hk : p.kind = .pseudoClass)
    (h : compilePart b p = .ok s) : PseudoPrepared p s := by
  rw [compilePart, hk] at h
  dsimp only at h
  cases hpc : PseudoClass.ofName? p.ident with
  | none =>
    rw [hpc] at h
    cases h
    exact .custom hpc
  | some pc =>
    rw [hpc] at h
    dsimp only at h
    cases hst : pc.structural? with
    | some st =>
      -- a structural pseudo-class refuses an argument
      cases harg : p.arg with
      | none =>
        simp only [hst, harg] at h
        cases h
        exact .structural hpc hst harg
      | some a =>
        simp only [hst, harg] at h
        cases h
    | none =>
      cases harg : p.arg with
      | none =>
        simp only [hst, harg] at h
        cases h
      | some a =>
        cases hcount : pc.nthCount? with
        | some count =>
          simp only [hst, hcount, harg] at h
          cases hf : Nth.parse? a with
          | some f =>
            rw [hf] at h
            cases h
            exact .nth hpc hcount harg hf
          | none =>
            rw [hf] at h
            cases h
        | none =>
          -- only `:not` is left, and its argument is compiled as a selector of its own
          obtain rfl := PseudoClass.eq_negation hst hcount
          have htext : p.argText = a := by simp [Part.argText, harg]
          simp only [hst, hcount, harg] at h
          split at h
          · split at h
            · cases h
            · rename_i inner hinner
              split at h
              · cases h
              · rename_i hnone
                cases h
                exact .negation hpc (htext ▸ hinner) hnone
          · cases h

theorem compileParts_getElem? {b : Nat} {ps : List Part} {ss : List Step}
    (h : compileParts b ps = .ok ss) (i : Nat) :
    Option.Rel (fun p s => compilePart b p = .ok s) ps[i]? ss[i]? := by
  induction ps generalizing ss i with
  | nil =>
    rw [compileParts] at h
    cases h
    exact .none
  | cons p ps ih =>
    rw [compileParts] at h
    split at h
    · cases h
    · rename_i s hs
      split at h
      · cases h
      · rename_i ss' hss
        cases h
        cases i with
        | zero => exact .some hs
        | succ i => exact ih hss i

theorem compileParts_part_of_getElem? {b : Nat} {ps : List Part} {ss : List Step}
    (h : compileParts b ps = .ok ss) {i : Nat} {s : Step} (hs : ss[i]? = some s) :
    ∃ p, ps[i]? = some p ∧ compilePart b p = .ok s := by
  have hrel := compileParts_getElem? h i
  rw [hs] at hrel
  generalize ps[i]? = o at hrel ⊢
  cases hrel with
  | some hcp => exact ⟨_, rfl, hcp⟩

theorem compileParts_step_of_getElem? {b : Nat} {ps : List Part} {ss : List Step}
    (h : compileParts b ps = .ok ss) {i : Nat} {p : Part} (hp : ps[i]? = some p) :
    ∃ s, ss[i]? = some s ∧ compilePart b p = .ok s := by
  have hrel := compileParts_getElem? h i
  rw [hp] at hrel
  generalize ss[i]? = o at hrel ⊢
  cases hrel with
  | some hcp => exact ⟨_, rfl, hcp⟩

theorem compileParts_length {b : Nat} {ps : List Part} {ss : List Step}
    (h : compileParts b ps = .ok ss) : ss.length = ps.length := by
  induction ps generalizing ss with
  | nil =>
    rw [compileParts] at h
    cases h
    rfl
  | cons p ps ih =>
    rw [compileParts] at h
    split at h
    · cases h
    · split at h
      · cases h
      · rename_i ss' hss
        cases h
        simp [ih hss]

theorem getElem?_snoc_eq_some {α : Type} {ps : List α} {p q : α} {i : Nat}
    (h : (ps ++ [p])[i]? = some q) : (i < ps.length ∧ ps[i]? = some q) ∨ (i = ps.length ∧ q = p) := by
  by_cases hi : i < ps.length
  · rw [List.getElem?_append_left hi] at h
    exact .inl ⟨hi, h⟩
  · rw [List.getElem?_append_right (by omega), List.getElem?_singleton] at h
    split at h
    · cases h
      exact .inr ⟨by omega, rfl⟩
    · cases h

/-- What `landmarks` knows after reading some parts. -/
structure LandmarksOf (ps : List Part) (l : Landmarks) : Prop where
  marker : ∀ i, l.marker = some i → ∃ q, ps[i]? = some q ∧ q.kind = .subject
  last : ∀ c, l.lastCombinator = some c → ∃ q, ps[c]? = some q ∧ q.kind.isCombinator = true
  lastIsLast : ∀ c, l.lastCombinator = some c →
    ∀ j q, c < j → ps[j]? = some q → q.kind.isCombinator = false
  noCombinator : l.lastCombinator = none → ∀ q ∈ ps, q.kind.isCombinator = false
  noPseudoElement : l.firstPseudoElement = none → ∀ q ∈ ps, q.kind ≠ .pseudoElement
  combinatorsFirst : ∀ (i j : Nat) (p q : Part), ps[i]? = some p → ps[j]? = some q → p.kind = .pseudoElement →
    q.kind.isCombinator = true → j < i

theorem landmarks_snoc (ps : List Part) (p : Part) :
    landmarks (ps ++ [p]) = landmarks ps >>= fun l => landmarks.step l (p, ps.length) := by
  simp [landmarks, List.zipIdx_append]

theorem landmarksOf_nil : LandmarksOf [] {} where
  marker := by simp
  last := by simp
  lastIsLast := by simp
  noCombinator := by simp
  noPseudoElement := by simp
  combinatorsFirst := by simp

theorem getElem?_append_of_eq_some {α : Type} {ps qs : List α} {i : Nat} {q : α}
    (h : ps[i]? = some q) : (ps ++ qs)[i]? = some q := by
  rw [List.getElem?_append_left (List.getElem?_eq_some_iff.mp h).1]
  exact h

namespace LandmarksOf

variable {ps : List Part} {l : Landmarks} (hl : LandmarksOf ps l) {p : Part}
include hl

theorem marker_snoc (i : Nat) (hi : l.marker = some i) :
    ∃ q, (ps ++ [p])[i]? = some q ∧ q.kind = .subject := by
  obtain ⟨q, hq, hk⟩ := hl.marker i hi
  exact ⟨q, getElem?_append_of_eq_some hq, hk⟩

theorem last_snoc (c : Nat) (hc : l.lastCombinator = some c) :
    ∃ q, (ps ++ [p])[c]? = some q ∧ q.kind.isCombinator = true := by
  obtain ⟨q, hq, hk⟩ := hl.last c hc
  exact ⟨q, getElem?_append_of_eq_some hq, hk⟩

theorem lastIsLast_snoc (hp : p.kind.isCombinator = false) (c : Nat)
    (hc : l.lastCombinator = some c) (j : Nat) (q : Part) (hj : c < j)
    (hq : (ps ++ [p])[j]? = some q) : q.kind.isCombinator = false := by
  rcases getElem?_snoc_eq_some hq with ⟨-, hq⟩ | ⟨-, rfl⟩
  · exact hl.lastIsLast c hc j q hj hq
  · exact hp

theorem noCombinator_snoc (hp : p.kind.isCombinator = false) (hn : l.lastCombinator = none)
    (q : Part) (hq : q ∈ ps ++ [p]) : q.kind.isCombinator = false := by
  rcases List.mem_append.mp hq with hq | hq
  · exact hl.noCombinator hn q hq
  · rw [List.mem_singleton.mp hq]
    exact hp

theorem noPseudoElement_snoc (hp : p.kind ≠ .pseudoElement) (hn : l.firstPseudoElement = none)
    (q : Part) (hq : q ∈ ps ++ [p]) : q.kind ≠ .pseudoElement := by
  rcases List.mem_append.mp hq with hq | hq
  · exact hl.noPseudoElement hn q hq
  · rw [List.mem_singleton.mp hq]
    exact hp

theorem combinatorsFirst_snoc (hp : p.kind ≠ .pseudoElement) (hc : p.kind.isCombinator = false)
    (i j : Nat) (a b : Part) (ha : (ps ++ [p])[i]? = some a) (hb : (ps ++ [p])[j]? = some b)
    (hak : a.kind = .pseudoElement) (hbk : b.kind.isCombinator = true) : j < i := by
  rcases getElem?_snoc_eq_some ha with ⟨-, ha'⟩ | ⟨-, rfl⟩
  · rcases getElem?_snoc_eq_some hb with ⟨-, hb'⟩ | ⟨-, rfl⟩
    · exact hl.combinatorsFirst i j a b ha' hb' hak hbk
    · rw [hc] at hbk
      cases hbk
  · exact absurd hak hp

theorem snoc_other (hp : p.kind ≠ .pseudoElement) (hc : p.kind.isCombinator = false) :
    LandmarksOf (ps ++ [p]) l :=
  ⟨hl.marker_snoc, hl.last_snoc, hl.lastIsLast_snoc hc, hl.noCombinator_snoc hc,
    hl.noPseudoElement_snoc hp, hl.combinatorsFirst_snoc hp hc⟩

theorem step {l' : Landmarks} (h : landmarks.step l (p, ps.length) = .ok l') :
    LandmarksOf (ps ++ [p]) l' := by
  have hlast : (ps ++ [p])[ps.length]? = some p := List.getElem?_concat_length
  unfold landmarks.step at h
  split at h
  rename_i hpair
  cases hpair
  split at h <;> rename_i hk
  · -- the marker: its index is recorded
    split at h
    · cases h
    · cases h
      have ho := hl.snoc_other (p := p) (by rw [hk]; simp) (by rw [hk]; rfl)
      exact { ho with
        marker := fun i hi => by
          cases hi
          exact ⟨p, hlast, hk⟩ }
  · -- a pseudo-element: every combinator read so far comes before it
    cases h
    have hc : p.kind.isCombinator = false := by rw [hk]; rfl
    refine ⟨hl.marker_snoc, hl.last_snoc, hl.lastIsLast_snoc hc, hl.noCombinator_snoc hc,
      fun hn => ?_, fun i j a b ha hb hak hbk => ?_⟩
    · simp only [Option.orElse] at hn
      split at hn <;> cases hn
    · rcases getElem?_snoc_eq_some hb with ⟨hjb, hb'⟩ | ⟨-, rfl⟩
      · rcases getElem?_snoc_eq_some ha with ⟨-, ha'⟩ | ⟨rfl, -⟩
        · exact hl.combinatorsFirst i j a b ha' hb' hak hbk
        · exact hjb
      · rw [hc] at hbk
        cases hbk
  · -- a combinator: no pseudo-element was read before it
    split at h
    · cases h
    · rename_i hpe
      cases h
      have hc : p.kind.isCombinator = true := by rw [hk]; rfl
      have hnpe := hl.noPseudoElement hpe
      refine ⟨hl.marker_snoc, fun c hc' => ?_, fun c hc' j q hj hq => ?_, fun hn => ?_,
        hl.noPseudoElement_snoc (by rw [hk]; simp), fun i j a b ha hb hak hbk => ?_⟩
      · cases hc'
        exact ⟨p, hlast, hc⟩
      · cases hc'
        have := (List.getElem?_eq_some_iff.mp hq).1
        simp only [List.length_append, List.length_singleton] at this
        omega
      · cases hn
      · rcases getElem?_snoc_eq_some ha with ⟨-, ha'⟩ | ⟨-, rfl⟩
        · exact absurd hak (hnpe a (List.mem_of_getElem? ha'))
        · rw [hk] at hak
          cases hak
  · -- any other part changes nothing
    cases h
    rename_i hns hnpe
    have hc : p.kind.isCombinator = false := by
      cases hq : p.kind with
      | combinator c => exact absurd hq (hk c)
      | _ => rfl
    exact hl.snoc_other hnpe hc

end LandmarksOf

theorem landmarksOf_landmarks {ps : List Part} {l : Landmarks} (h : landmarks ps = .ok l) :
    LandmarksOf ps l := by
  induction ps using List.reverseRecOn generalizing l with
  | nil =>
    cases h
    exact landmarksOf_nil
  | append_singleton ps p ih =>
    rw [landmarks_snoc] at h
    cases hps : landmarks ps with
    | error e =>
      rw [hps] at h
      cases h
    | ok l₀ =>
      rw [hps] at h
      exact (ih hps).step h

theorem landmarks.step_marker {l l' : Landmarks} {p : Part} {n : Nat}
    (h : landmarks.step l (p, n) = .ok l') :
    (p.kind = .subject → l.marker = none ∧ l'.marker = some n) ∧
      (p.kind ≠ .subject → l'.marker = l.marker) := by
  unfold landmarks.step at h
  split at h
  rename_i hpair
  cases hpair
  split at h <;> rename_i hk
  · -- the marker
    split at h
    · cases h
    · rename_i hnone
      cases h
      exact ⟨fun _ => ⟨by simpa using hnone, rfl⟩, fun hne => absurd hk hne⟩
  · cases h
    exact ⟨(fun hs => by rw [hk] at hs; cases hs), fun _ => rfl⟩
  · split at h
    · cases h
    · cases h
      exact ⟨(fun hs => by rw [hk] at hs; cases hs), fun _ => rfl⟩
  · cases h
    rename_i hns _
    exact ⟨fun hs => absurd hs hns, fun _ => rfl⟩

theorem marker_eq_of_subject {ps : List Part} {l : Landmarks} (h : landmarks ps = .ok l)
    {i : Nat} {q : Part} (hq : ps[i]? = some q) (hk : q.kind = .subject) : l.marker = some i := by
  induction ps using List.reverseRecOn generalizing l with
  | nil => cases hq
  | append_singleton ps p ih =>
    rw [landmarks_snoc] at h
    cases hps : landmarks ps with
    | error e =>
      rw [hps] at h
      cases h
    | ok l₀ =>
      rw [hps] at h
      have hstep := landmarks.step_marker h
      rcases getElem?_snoc_eq_some hq with ⟨-, hq'⟩ | ⟨rfl, rfl⟩
      · -- an earlier marker: the new part is not a second one
        have hm := ih hps hq'
        by_cases hp : p.kind = .subject
        · rw [(hstep.1 hp).1] at hm
          cases hm
        · rw [hstep.2 hp, hm]
      · exact (hstep.1 hk).2

theorem getLast?_combinators (xs : List Part) :
    (∀ q c, (xs.zipIdx.filter fun x => x.1.kind.isCombinator).getLast? = some (q, c) →
      xs[c]? = some q ∧ q.kind.isCombinator = true ∧
        ∀ j q', c < j → xs[j]? = some q' → q'.kind.isCombinator = false) ∧
    ((xs.zipIdx.filter fun x => x.1.kind.isCombinator).getLast? = none →
      ∀ (j : Nat) (q : Part), xs[j]? = some q → q.kind.isCombinator = false) := by
  induction xs using List.reverseRecOn with
  | nil => simp
  | append_singleton xs p ih =>
    obtain ⟨ihs, ihn⟩ := ih
    rw [List.zipIdx_append, List.filter_append, List.getLast?_append]
    by_cases hp : p.kind.isCombinator = true
    · -- the new part is the last combinator
      have hlast : (([p].zipIdx (0 + xs.length)).filter fun x => x.1.kind.isCombinator).getLast? =
          some (p, xs.length) := by simp [hp]
      rw [hlast]
      refine ⟨fun q c h => ?_, fun h => by cases h⟩
      simp only [Option.some_or, Option.some.injEq, Prod.mk.injEq] at h
      obtain ⟨rfl, rfl⟩ := h
      refine ⟨List.getElem?_concat_length, hp, fun j q' hj hq' => ?_⟩
      have := (List.getElem?_eq_some_iff.mp hq').1
      simp only [List.length_append, List.length_singleton] at this
      omega
    · -- the new part leaves the last combinator where it was
      have hp' : p.kind.isCombinator = false := by simpa using hp
      have hnone : (([p].zipIdx (0 + xs.length)).filter fun x => x.1.kind.isCombinator) = [] := by
        simp [hp']
      rw [hnone, List.getLast?_nil, Option.none_or]
      refine ⟨fun q c h => ?_, fun h j q hq => ?_⟩
      · obtain ⟨hq, hqc, hafter⟩ := ihs q c h
        refine ⟨getElem?_append_of_eq_some hq, hqc, fun j q' hj hq' => ?_⟩
        rcases getElem?_snoc_eq_some hq' with ⟨-, hq'⟩ | ⟨-, rfl⟩
        · exact hafter j q' hj hq'
        · exact hp'
      · rcases getElem?_snoc_eq_some hq with ⟨-, hq⟩ | ⟨-, rfl⟩
        · exact ihn h j q hq
        · exact hp'

theorem subjectIndex_le_marker (parts : List Part) {l : Landmarks} {i : Nat} (hm : l.marker = some i) : subjectIndex parts l ≤ i := by
  unfold subjectIndex
  rw [hm]
  dsimp only
  split
  · rename_i q c hc
    have := (List.getElem?_eq_some_iff.mp ((getLast?_combinators (parts.take i)).1 q c hc).1).1
    simp only [List.length_take] at this
    omega
  · exact Nat.zero_le i

theorem subjectIndex_le_of_subject {parts : List Part} {l : Landmarks} (h : landmarks parts = .ok l)
    {i : Nat} {q : Part} (hq : parts[i]? = some q) (hk : q.kind = .subject) :
    subjectIndex parts l ≤ i :=
  subjectIndex_le_marker parts (marker_eq_of_subject h hq hk)

section SubjectIndex

variable {parts : List Part} {l : Landmarks} (hl : LandmarksOf parts l)
include hl

theorem subjectIndex_start :
    subjectIndex parts l = 0 ∨
      ∃ c q, parts[c]? = some q ∧ q.kind.isCombinator = true ∧ subjectIndex parts l = c + 1 := by
  unfold subjectIndex
  split
  · rename_i i hm
    dsimp only
    split
    · rename_i q c hc
      obtain ⟨hq, hqc, -⟩ := (getLast?_combinators (parts.take i)).1 q c hc
      have hci : c < i := by
        have := (List.getElem?_eq_some_iff.mp hq).1
        simp only [List.length_take] at this
        omega
      rw [List.getElem?_take_of_lt hci] at hq
      exact .inr ⟨c, q, hq, hqc, rfl⟩
    · exact .inl rfl
  · split
    · rename_i c hc
      obtain ⟨q, hq, hqc⟩ := hl.last c hc
      exact .inr ⟨c, q, hq, hqc, rfl⟩
    · exact .inl rfl

theorem marker_lt_of_combinator {j : Nat} {q : Part} (hj : subjectIndex parts l ≤ j)
    (hq : parts[j]? = some q) (hqc : q.kind.isCombinator = true) :
    ∃ i, l.marker = some i ∧ i < j := by
  unfold subjectIndex at hj
  split at hj
  · rename_i i hm
    dsimp only at hj
    refine ⟨i, hm, ?_⟩
    obtain ⟨qi, hqi, hqik⟩ := hl.marker i hm
    have hne : j ≠ i := by
      rintro rfl
      rw [hq] at hqi
      cases hqi
      rw [hqik] at hqc
      cases hqc
    by_contra hle
    have hji : j < i := by omega
    have hq' : (parts.take i)[j]? = some q := by rwa [List.getElem?_take_of_lt hji]
    split at hj
    · rename_i q' c hc
      have := ((getLast?_combinators (parts.take i)).1 q' c hc).2.2 j q (by omega) hq'
      rw [hqc] at this
      cases this
    · rename_i hc
      have := (getLast?_combinators (parts.take i)).2 hc j q hq'
      rw [hqc] at this
      cases this
  · split at hj
    · rename_i c hc
      have := hl.lastIsLast c hc j q (by omega) hq
      rw [hqc] at this
      cases this
    · rename_i hc
      have := hl.noCombinator hc q (List.mem_of_getElem? hq)
      rw [hqc] at this
      cases this

theorem subjectIndex_le_length : subjectIndex parts l ≤ parts.length := by
  rcases subjectIndex_start hl with h0 | ⟨c, q, hq, -, hk⟩
  · omega
  · have := (List.getElem?_eq_some_iff.mp hq).1
    omega

theorem subjectIndex_le_of_pseudoElement {i : Nat} {p : Part} (hp : parts[i]? = some p)
    (hpk : p.kind = .pseudoElement) : subjectIndex parts l ≤ i := by
  rcases subjectIndex_start hl with h0 | ⟨c, q, hq, hqc, hk⟩
  · omega
  · have := hl.combinatorsFirst i c p q hp hq hpk hqc
    omega

end SubjectIndex

theorem compileWithin_eq_ok {b : Nat} {chain : Chain} {m : Matcher}
    (h : compileWithin b chain = .ok m) :
    ∃ l, landmarks chain.parts = .ok l ∧ compileParts b chain.parts = .ok m.steps ∧
      m.subject = subjectIndex chain.parts l ∧ m.chain = chain := by
  rw [compileWithin] at h
  split at h
  · cases h
  · rename_i l hl
    split at h
    · cases h
    · rename_i steps hs
      cases h
      exact ⟨l, hl, hs, rfl, rfl⟩

theorem Matcher.parse_eq_ok {s : String} {m : Matcher} (h : Matcher.parse s = .ok m) :
    ∃ l, landmarks m.chain.parts = .ok l ∧ compileParts s.length m.chain.parts = .ok m.steps ∧
      m.subject = subjectIndex m.chain.parts l := by
  rw [Matcher.parse] at h
  split at h
  · cases h
  · obtain ⟨l, hl, hs, hk, rfl⟩ := compileWithin_eq_ok h
    exact ⟨l, hl, hs, hk⟩

section Shape

variable {b : Nat} {parts : List Part} {l : Landmarks} {steps : List Step}
  (hl : LandmarksOf parts l) (hs : compileParts b parts = .ok steps)
include hl hs

theorem pseudoElement_not_mem_take (name : String) (arg : String) :
    .pseudoElement name arg ∉ steps.take (subjectIndex parts l) := by
  intro hmem
  obtain ⟨i, hi⟩ := List.mem_iff_getElem?.mp hmem
  rw [List.getElem?_take] at hi
  split at hi
  · rename_i hik
    obtain ⟨p, hp, hcp⟩ := compileParts_part_of_getElem? hs hi
    have hpk : p.kind = .pseudoElement := (compilePart_kinds hcp).2.1.mp ⟨name, arg, rfl⟩
    have := subjectIndex_le_of_pseudoElement hl hp hpk
    omega
  · cases hi

theorem subjectLeads_drop : SubjectLeads (steps.drop (subjectIndex parts l)) := by
  -- a combinator step at index j comes from a combinator part at index j
  have hcomb : ∀ (j : Nat) (c : Combinator), steps[j]? = some (Step.combinator c) →
      ∃ q : Part, parts[j]? = some q ∧ q.kind.isCombinator = true := by
    intro j c hj
    obtain ⟨q, hq, hcp⟩ := compileParts_part_of_getElem? hs hj
    refine ⟨q, hq, ?_⟩
    rw [((compilePart_kinds hcp).2.2 c).mp rfl]
    rfl
  cases hm : l.marker with
  | none =>
    left
    intro c hmem
    obtain ⟨j, hj⟩ := List.mem_iff_getElem?.mp hmem
    rw [List.getElem?_drop] at hj
    obtain ⟨q, hq, hqc⟩ := hcomb _ c hj
    obtain ⟨i, hi, -⟩ := marker_lt_of_combinator hl (Nat.le_add_right _ j) hq hqc
    rw [hm] at hi
    cases hi
  | some i =>
    right
    have hki := subjectIndex_le_marker parts hm
    obtain ⟨q, hq, hqk⟩ := hl.marker i hm
    -- the marker part compiles to the marker step
    have hsi : steps[i]? = some .subject := by
      obtain ⟨s, hs', hcp⟩ := compileParts_step_of_getElem? hs hq
      rw [hs', (compilePart_kinds hcp).1.mpr hqk]
    have hlen : i < steps.length := (List.getElem?_eq_some_iff.mp hsi).1
    refine ⟨(steps.drop (subjectIndex parts l)).take (i - subjectIndex parts l),
      steps.drop (i + 1), ?_, fun c hmem => ?_⟩
    · have hdrop : (steps.drop (subjectIndex parts l)).drop (i - subjectIndex parts l) =
          .subject :: steps.drop (i + 1) := by
        rw [List.drop_drop, Nat.add_sub_cancel' hki, List.drop_eq_getElem_cons hlen]
        rw [List.getElem?_eq_getElem hlen] at hsi
        rw [Option.some.inj hsi]
      rw [← hdrop, List.take_append_drop]
    · obtain ⟨j, hj⟩ := List.mem_iff_getElem?.mp hmem
      rw [List.getElem?_take] at hj
      split at hj
      · rename_i hji
        rw [List.getElem?_drop] at hj
        obtain ⟨q', hq', hqc'⟩ := hcomb _ c hj
        obtain ⟨i', hi', hlt⟩ := marker_lt_of_combinator hl (Nat.le_add_right _ j) hq' hqc'
        rw [hm] at hi'
        cases hi'
        omega
      · cases hj

end Shape

/-- A parsed matcher has no pseudo-element before its subject compound, and from the subject
compound on its marker comes before every combinator. -/
theorem Matcher.parse_shape {s : String} {m : Matcher} (h : Matcher.parse s = .ok m) :
    (∀ name arg, .pseudoElement name arg ∉ m.steps.take m.subject) ∧
      SubjectLeads (m.steps.drop m.subject) := by
  obtain ⟨l, hl, hs, hk⟩ := Matcher.parse_eq_ok h
  rw [hk]
  exact ⟨pseudoElement_not_mem_take (landmarksOf_landmarks hl) hs,
    subjectLeads_drop (landmarksOf_landmarks hl) hs⟩

/-- What compiling a chain under any bound gives: one step per part, compiled from it, with
pseudo-elements handed to the tree and pseudo-classes prepared by name and argument; and a
subject compound that starts at the front or right after a combinator, with the marker and
every pseudo-element in it or after it. -/
structure WellPrepared (b : Nat) (chain : Chain) (m : Matcher) : Prop where
  length_steps : m.steps.length = chain.parts.length
  prepared : ∀ (i : Nat) p, chain.parts[i]? = some p → ∃ s, m.steps[i]? = some s ∧
    compilePart b p = .ok s ∧
    (p.kind = .pseudoElement → s = .pseudoElement ("::" ++ p.ident) p.argText) ∧
    (p.kind = .pseudoClass → PseudoPrepared p s)
  subject_start : m.subject = 0 ∨
    ∃ q, chain.parts[m.subject - 1]? = some q ∧ q.kind.isCombinator = true
  subject_le_length : m.subject ≤ chain.parts.length
  marker_after : ∀ (i : Nat) q, chain.parts[i]? = some q → q.kind = .subject → m.subject ≤ i
  pseudoElement_after : ∀ (i : Nat) q, chain.parts[i]? = some q → q.kind = .pseudoElement → m.subject ≤ i
  before_tests : ∀ s ∈ m.before, s ≠ .subject ∧ ∀ name arg, s ≠ .pseudoElement name arg

section Prepared

variable {b : Nat} {chain : Chain} {m : Matcher} (h : compileWithin b chain = .ok m)
include h

theorem compileWithin_step_at {i : Nat} {p : Part} (hp : chain.parts[i]? = some p) :
    ∃ s, m.steps[i]? = some s ∧ compilePart b p = .ok s ∧
      (p.kind = .pseudoElement → s = .pseudoElement ("::" ++ p.ident) p.argText) ∧
      (p.kind = .pseudoClass → PseudoPrepared p s) := by
  obtain ⟨l, -, hs, -, -⟩ := compileWithin_eq_ok h
  obtain ⟨s, hsi, hcp⟩ := compileParts_step_of_getElem? hs hp
  exact ⟨s, hsi, hcp, fun hk => compilePart_pseudoElement hk hcp,
    fun hk => compilePart_pseudoClass hk hcp⟩

theorem compileWithin_subject_le {i : Nat} {q : Part} (hq : chain.parts[i]? = some q)
    (hk : q.kind = .subject ∨ q.kind = .pseudoElement) : m.subject ≤ i := by
  obtain ⟨l, hland, -, hsub, -⟩ := compileWithin_eq_ok h
  rw [hsub]
  rcases hk with hk | hk
  · exact subjectIndex_le_of_subject hland hq hk
  · exact subjectIndex_le_of_pseudoElement (landmarksOf_landmarks hland) hq hk

theorem compileWithin_before_tests (s : Step) (hs : s ∈ m.before) :
    s ≠ .subject ∧ ∀ name arg, s ≠ .pseudoElement name arg := by
  obtain ⟨l, -, hsteps, -, -⟩ := compileWithin_eq_ok h
  rw [Matcher.before, List.mem_reverse] at hs
  obtain ⟨i, hi⟩ := List.mem_iff_getElem?.mp hs
  rw [List.getElem?_take] at hi
  split at hi
  · rename_i hik
    -- the step before the subject compound comes from a part there
    obtain ⟨p, hp, hcp⟩ := compileParts_part_of_getElem? hsteps hi
    have hkinds := compilePart_kinds hcp
    refine ⟨fun hsub => ?_, fun name arg hpe => ?_⟩
    · have := compileWithin_subject_le h hp (.inl (hkinds.1.mp hsub))
      omega
    · have := compileWithin_subject_le h hp (.inr (hkinds.2.1.mp ⟨name, arg, hpe⟩))
      omega
  · cases hi

end Prepared

/-- Every matcher compiled from a chain is well prepared. -/
theorem compileWithin_wellPrepared {b : Nat} {chain : Chain} {m : Matcher}
    (h : compileWithin b chain = .ok m) : WellPrepared b chain m := by
  obtain ⟨l, hland, hs, hsub, -⟩ := compileWithin_eq_ok h
  have hl := landmarksOf_landmarks hland
  refine ⟨compileParts_length hs, fun i p hp => compileWithin_step_at h hp, ?_, ?_,
    fun i q hq hk => compileWithin_subject_le h hq (.inl hk),
    fun i q hq hk => compileWithin_subject_le h hq (.inr hk), compileWithin_before_tests h⟩
  · rcases subjectIndex_start hl with h0 | ⟨c, q, hq, hqc, hk⟩
    · exact .inl (hsub.trans h0)
    · refine .inr ⟨q, ?_, hqc⟩
      rw [hsub, hk, Nat.add_sub_cancel]
      exact hq
  · rw [hsub]
    exact subjectIndex_le_length hl

theorem compileWithin_wellPrepared_firstChild :
    let c : Chain := ⟨[{ kind := .typeName, ident := "a" }, { kind := .combinator .child },
      { kind := .pseudoClass, ident := "first-child" }]⟩
    let m : Matcher := ⟨c, [.typeIs "a", .combinator .child, .structural .firstChild], 2, some 1,
      none⟩
    compileWithin 0 c = .ok m ∧ WellPrepared 0 c m := by
  intro c m
  have hpc : PseudoClass.ofName? "first-child" = some .firstChild := by decide
  have hland : landmarks c.parts = .ok { lastCombinator := some 1 } := rfl
  have hc : compileWithin 0 c = .ok m := by
    rw [compileWithin, hland]
    simp [c, m, compileParts, compilePart, hpc, PseudoClass.structural?, subjectIndex]
  exact ⟨hc, compileWithin_wellPrepared hc⟩

end TreeQuery.Selector

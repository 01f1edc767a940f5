import TreeQuery.Selector.Nth
import Mathlib.Data.Nat.Digits.Defs
import Mathlib.Data.List.TakeWhile

/-!
# The An+B formula: which texts read and which positions match

`Nth.parse?` reads exactly the texts of the An+B grammar, and `nthMatches` refuses only the
positions whose difference to `b` leaves the 64-bit range.
-/

namespace TreeQuery.Selector

theorem exists_natMul_eq_iff {a d : Int} (ha : a ≠ 0) :
    (∃ n : Nat, a * n = d) ↔ d % a = 0 ∧ 0 ≤ d / a := by
  constructor
  · rintro ⟨n, rfl⟩
    rw [Int.mul_ediv_cancel_left _ ha]
    exact ⟨Int.mul_emod_right a n, Int.natCast_nonneg n⟩
  · rintro ⟨hmod, hnonneg⟩
    refine ⟨(d / a).toNat, ?_⟩
    rw [Int.toNat_of_nonneg hnonneg]
    exact Int.mul_ediv_cancel' (Int.dvd_of_emod_eq_zero hmod)

theorem sub_ne_minInt64 {pos b : Int} (hpos : 1 ≤ pos) (hb : fitsInt64 b = true) :
    pos - b ≠ minInt64 := by
  have h63 : Int.pow 2 63 = 9223372036854775808 := by decide
  simp only [fitsInt64, maxInt64, minInt64, h63, decide_eq_true_eq] at hb ⊢
  omega

/-- A position matches `a n + b` exactly when it is positive, its difference to `b` stays in
the 64-bit range, and it is `a n + b` for some natural `n`. -/
theorem nthMatches_iff (pos a b : Int) (hb : fitsInt64 b = true) :
    nthMatches pos a b = true ↔ 1 ≤ pos ∧ fitsInt64 (pos - b) = true ∧ ∃ n : Nat, a * n + b = pos := by
  unfold nthMatches
  by_cases hpos : pos ≤ 0
  · simp only [hpos, if_true, Bool.false_eq_true, false_iff]
    omega
  rw [if_neg hpos]
  by_cases ha : a = 0
  · subst ha
    simp only [if_true, beq_iff_eq, Int.zero_mul, Int.zero_add, exists_const]
    constructor
    · rintro rfl
      refine ⟨by omega, ?_, rfl⟩
      simp only [Int.sub_self]
      decide
    · exact fun h => h.2.2.symm
  rw [if_neg ha]
  have hsum : (∃ n : Nat, a * n + b = pos) ↔ ∃ n : Nat, a * n = pos - b :=
    exists_congr fun n => by omega
  have hmin : (pos - b == minInt64) = false :=
    beq_eq_false_iff_ne.mpr (sub_ne_minInt64 (by omega) hb)
  have hpos' : 1 ≤ pos := by omega
  simp only [hsum, exists_natMul_eq_iff ha, hmin, hpos', Bool.false_and, Bool.not_false,
    Bool.and_true, Bool.and_eq_true, beq_iff_eq, decide_eq_true_eq, true_and, and_assoc]

theorem nthMatches_iff_every_third : fitsInt64 5 = true ∧
    (nthMatches 11 3 5 = true ↔ 1 ≤ (11 : Int) ∧ fitsInt64 (11 - 5) = true ∧
      ∃ n : Nat, 3 * n + 5 = (11 : Int)) :=
  ⟨by decide, nthMatches_iff 11 3 5 (by decide)⟩

/-- The first position is `1 n - (2 ^ 63 - 1)` for `n = 2 ^ 63`, yet it does not match that
formula: the difference `1 + (2 ^ 63 - 1)` leaves the 64-bit range. -/
theorem nthMatches_far_offset :
    nthMatches 1 1 (-maxInt64) = false ∧ ∃ n : Nat, 1 * (n : Int) + -maxInt64 = 1 :=
  ⟨by decide, ⟨2 ^ 63, by decide⟩⟩

def Blanks (cs : List Char) : Prop := ∀ c ∈ cs, isBlank c = true

def decimalValue (ds : List Char) : Nat := Nat.ofDigits 10 (ds.reverse.map fun d => d.toNat - 48)

/-- `INTEGER`: a run of ASCII digits, and its value, which must fit 64 bits. -/
structure IntegerText (ds : List Char) (v : Int) : Prop where
  ne_nil : ds ≠ []
  digits : ∀ d ∈ ds, isAsciiDigit d = true
  value : v = decimalValue ds
  fits : v ≤ maxInt64

/-- `['-'|'+']?`, and the sign it gives. -/
inductive SignText : List Char → Int → Prop
  | none : SignText [] 1
  | plus : SignText ['+'] 1
  | minus : SignText ['-'] (-1)

/-- The step before `N`: an integer, or `1` when none is written. -/
def StepText (ds : List Char) (k : Int) : Prop := (ds = [] ∧ k = 1) ∨ IntegerText ds k

def IsN (c : Char) : Prop := c = 'n' ∨ c = 'N'

/-- What may follow `N`: nothing, or `S* ['-'|'+'] S* INTEGER`; and the offset it gives. -/
inductive OffsetText : List Char → Int → Prop
  | none : OffsetText [] 0
  | signed {gap₁ gap₂ es : List Char} {o : Char} {τ v : Int} :
      Blanks gap₁ → SignText [o] τ → Blanks gap₂ → IntegerText es v →
      OffsetText (gap₁ ++ [o] ++ gap₂ ++ es) (τ * v)

/-- A formula without the blanks around it, and its value. -/
inductive FormulaText : List Char → Nth → Prop
  /-- `['-'|'+']? INTEGER? N [ S* ['-'|'+'] S* INTEGER ]?` -/
  | step {s ds t : List Char} {σ k v : Int} {n : Char} :
      SignText s σ → StepText ds k → IsN n → OffsetText t v →
      FormulaText (s ++ ds ++ [n] ++ t) ⟨σ * k, v⟩
  /-- `['-'|'+']? INTEGER` -/
  | offset {s es : List Char} {σ v : Int} :
      SignText s σ → IntegerText es v → FormulaText (s ++ es) ⟨0, σ * v⟩
  | odd {w : List Char} : w.map Char.toLower = ['o', 'd', 'd'] → FormulaText w ⟨2, 1⟩
  | even {w : List Char} : w.map Char.toLower = ['e', 'v', 'e', 'n'] → FormulaText w ⟨2, 0⟩

/-- A whole argument: blanks, a formula, blanks. -/
def NthText (cs : List Char) (f : Nth) : Prop :=
  ∃ lead body trail, cs = lead ++ body ++ trail ∧ Blanks lead ∧ FormulaText body f ∧ Blanks trail

theorem isAsciiDigit_iff {c : Char} : isAsciiDigit c = true ↔ 48 ≤ c.toNat ∧ c.toNat ≤ 57 := by
  simp only [isAsciiDigit, Bool.and_eq_true, decide_eq_true_eq]
  rfl

theorem isBlank_iff {c : Char} : isBlank c = true ↔ c.toNat = 32 ∨ (9 ≤ c.toNat ∧ c.toNat ≤ 13) := by
  simp [isBlank, blankByte]

theorem isAlpha_iff {c : Char} :
    c.isAlpha = true ↔ (65 ≤ c.toNat ∧ c.toNat ≤ 90) ∨ (97 ≤ c.toNat ∧ c.toNat ≤ 122) := by
  change (decide (c.val ≥ 'A'.val ∧ c.val ≤ 'Z'.val) ||
    (decide (c.val ≥ 'a'.val) && decide (c.val ≤ 'z'.val))) = true ↔ _
  simp only [Bool.or_eq_true, Bool.and_eq_true, decide_eq_true_eq]
  rfl

theorem isAsciiDigit_of_isBlank {c : Char} (h : isBlank c = true) : isAsciiDigit c = false := by
  rw [isBlank_iff] at h
  rw [Bool.eq_false_iff, ne_eq, isAsciiDigit_iff]
  omega

theorem isAlpha_of_isBlank {c : Char} (h : isBlank c = true) : c.isAlpha = false := by
  rw [isBlank_iff] at h
  rw [Bool.eq_false_iff, ne_eq, isAlpha_iff]
  omega

theorem isAsciiDigit_of_isAlpha {c : Char} (h : c.isAlpha = true) : isAsciiDigit c = false := by
  rw [isAlpha_iff] at h
  rw [Bool.eq_false_iff, ne_eq, isAsciiDigit_iff]
  omega

theorem not_sign_of_range {c : Char} (h : 48 ≤ c.toNat) : c ≠ '+' ∧ c ≠ '-' := by
  constructor <;> rintro rfl <;> simp at h

theorem skipBlanks_blanks_append {g : List Char} (hg : Blanks g) (r : List Char) :
    skipBlanks (g ++ r) = skipBlanks r := by
  induction g with
  | nil => rfl
  | cons c g ih =>
    rw [List.cons_append, skipBlanks, List.dropWhile_cons_of_pos (hg c List.mem_cons_self)]
    exact ih fun d hd => hg d (List.mem_cons_of_mem c hd)

theorem skipBlanks_of_head {r : List Char} (hr : ∀ c ∈ r.head?, isBlank c = false) :
    skipBlanks r = r := by
  cases r with
  | nil => rfl
  | cons c r => exact List.dropWhile_cons_of_neg (by simp [hr c rfl])

theorem skipBlanks_eq_nil {r : List Char} : skipBlanks r = [] ↔ Blanks r :=
  List.dropWhile_eq_nil_iff

theorem blanks_takeWhile (cs : List Char) : Blanks (cs.takeWhile isBlank) :=
  fun _ hc => List.mem_takeWhile_imp hc

theorem signOf_eq_some {cs r : List Char} {τ : Int} (h : signOf cs = some (τ, r)) :
    ∃ o, cs = o :: r ∧ SignText [o] τ := by
  unfold signOf at h
  split at h
  · cases h
    exact ⟨'+', rfl, .plus⟩
  · cases h
    exact ⟨'-', rfl, .minus⟩
  · cases h

theorem signOf_getD (cs : List Char) :
    ∃ s, SignText s ((signOf cs).getD (1, cs)).1 ∧ cs = s ++ ((signOf cs).getD (1, cs)).2 := by
  cases h : signOf cs with
  | none => exact ⟨[], .none, rfl⟩
  | some p =>
    obtain ⟨τ, r⟩ := p
    obtain ⟨o, hcs, hs⟩ := signOf_eq_some h
    exact ⟨[o], hs, hcs⟩

theorem signOf_getD_append {s r : List Char} {σ : Int} (hs : SignText s σ)
    (hr : ∀ c ∈ r.head?, c ≠ '+' ∧ c ≠ '-') : (signOf (s ++ r)).getD (1, s ++ r) = (σ, r) := by
  cases hs with
  | plus => rfl
  | minus => rfl
  | none =>
    match r, hr with
    | [], _ => rfl
    | c :: r, hr =>
      have hc : signOf (c :: r) = none := by
        obtain ⟨h1, h2⟩ := hr c rfl
        unfold signOf
        split <;> simp_all
      simp [hc]

theorem signText_ne_nil {c : Char} {τ : Int} (h : SignText [c] τ) : c = '+' ∨ c = '-' := by
  cases h with
  | plus => exact .inl rfl
  | minus => exact .inr rfl

theorem signOf_cons {o : Char} {τ : Int} (h : SignText [o] τ) (r : List Char) :
    signOf (o :: r) = some (τ, r) := by
  cases h <;> rfl

theorem digitFold_eq (ds : List Char) (acc : Int) :
    ds.foldl (fun acc d => 10 * acc + ((d.toNat - 48 : Nat) : Int)) acc =
      acc * 10 ^ ds.length + decimalValue ds := by
  induction ds generalizing acc with
  | nil => simp [decimalValue]
  | cons d ds ih =>
    rw [List.foldl_cons, ih]
    simp only [decimalValue, List.reverse_cons, List.map_append, List.map_cons, List.map_nil,
      Nat.ofDigits_append, Nat.ofDigits_singleton, List.length_map, List.length_reverse,
      List.length_cons, Int.pow_succ]
    push_cast
    ring

theorem drop_length_takeWhile (p : Char → Bool) (cs : List Char) :
    cs.drop (cs.takeWhile p).length = cs.dropWhile p := by
  have h : (cs.takeWhile p ++ cs.dropWhile p).drop (cs.takeWhile p).length = cs.dropWhile p :=
    List.drop_left
  rwa [List.takeWhile_append_dropWhile] at h

theorem head_dropWhile (p : Char → Bool) (cs : List Char) :
    ∀ c ∈ (cs.dropWhile p).head?, p c = false := by
  induction cs with
  | nil => simp
  | cons d cs ih =>
    cases hd : p d with
    | true => rwa [List.dropWhile_cons_of_pos hd]
    | false =>
      rw [List.dropWhile_cons_of_neg (by simp [hd])]
      simpa using hd

theorem digitRun_sound {cs r : List Char} {v : Int} (h : digitRun cs = some (v, r)) :
    ∃ ds, cs = ds ++ r ∧ IntegerText ds v ∧ ∀ c ∈ r.head?, isAsciiDigit c = false := by
  unfold digitRun at h
  dsimp only at h
  split at h
  · cases h
  · rename_i hcheck
    simp only [Option.some.injEq, Prod.mk.injEq, drop_length_takeWhile, digitFold_eq,
      Int.zero_mul, Int.zero_add] at h hcheck
    obtain ⟨rfl, rfl⟩ := h
    simp only [not_or, List.isEmpty_iff, not_lt] at hcheck
    exact ⟨cs.takeWhile isAsciiDigit, List.takeWhile_append_dropWhile.symm,
      ⟨hcheck.1, fun d hd => List.mem_takeWhile_imp hd, rfl, hcheck.2⟩, head_dropWhile _ cs⟩

theorem digitRun_append {ds r : List Char} {v : Int} (hds : IntegerText ds v)
    (hr : ∀ c ∈ r.head?, isAsciiDigit c = false) : digitRun (ds ++ r) = some (v, r) := by
  have htake : (ds ++ r).takeWhile isAsciiDigit = ds := by
    rw [List.takeWhile_append_of_pos hds.digits]
    cases r with
    | nil => simp
    | cons c r => simp [List.takeWhile_cons_of_neg, hr c rfl]
  unfold digitRun
  simp only [htake, digitFold_eq, Int.zero_mul, Int.zero_add, List.drop_left]
  rw [if_neg]
  · rw [hds.value]
  · simp only [not_or, List.isEmpty_iff, not_lt]
    exact ⟨hds.ne_nil, hds.value ▸ hds.fits⟩

theorem digitRun_of_head {cs : List Char} (hc : ∀ c ∈ cs.head?, isAsciiDigit c = false) :
    digitRun cs = none := by
  have htake : cs.takeWhile isAsciiDigit = [] := by
    cases cs with
    | nil => rfl
    | cons c cs => simp [List.takeWhile_cons_of_neg, hc c rfl]
  unfold digitRun
  simp [htake]

theorem isAlpha_of_isAlpha_toLower {c : Char} (h : c.toLower.isAlpha = true) : c.isAlpha = true := by
  unfold Char.toLower at h
  split at h
  · rename_i hu
    exact isAlpha_iff.mpr (.inl ⟨hu.1, hu.2⟩)
  · exact h

theorem sameIgnoringAsciiCase_ofList (w : List Char) (word : String) :
    sameIgnoringAsciiCase (String.ofList w) word = true ↔
      w.map Char.toLower = word.toList.map Char.toLower := by
  simp [sameIgnoringAsciiCase]

theorem isAlpha_of_map_toLower {w l : List Char} (hw : w.map Char.toLower = l)
    (hl : ∀ c ∈ l, c.isAlpha = true) : ∀ c ∈ w, c.isAlpha = true := by
  intro c hc
  apply isAlpha_of_isAlpha_toLower
  exact hl _ (hw ▸ List.mem_map_of_mem hc)

theorem parityWord_sound {cs r : List Char} {f : Nth} (h : parityWord cs = some (f, r)) :
    ∃ w, cs = w ++ r ∧ FormulaText w f ∧ ∀ c ∈ r.head?, c.isAlpha = false := by
  unfold parityWord at h
  dsimp only at h
  rw [drop_length_takeWhile] at h
  have hsplit : cs = cs.takeWhile Char.isAlpha ++ cs.dropWhile Char.isAlpha :=
    List.takeWhile_append_dropWhile.symm
  split at h
  · rename_i hodd
    cases h
    exact ⟨_, hsplit, .odd ((sameIgnoringAsciiCase_ofList _ _).mp hodd), head_dropWhile _ cs⟩
  · split at h
    · rename_i heven
      cases h
      exact ⟨_, hsplit, .even ((sameIgnoringAsciiCase_ofList _ _).mp heven), head_dropWhile _ cs⟩
    · cases h

theorem parityWord_append {w r : List Char} {f : Nth}
    (hw : w.map Char.toLower = ['o', 'd', 'd'] ∧ f = ⟨2, 1⟩ ∨
      w.map Char.toLower = ['e', 'v', 'e', 'n'] ∧ f = ⟨2, 0⟩)
    (hr : ∀ c ∈ r.head?, c.isAlpha = false) : parityWord (w ++ r) = some (f, r) := by
  have hletters : ∀ c ∈ w, c.isAlpha = true := by
    rcases hw with ⟨hw, -⟩ | ⟨hw, -⟩ <;> exact isAlpha_of_map_toLower hw (by simp)
  have htake : (w ++ r).takeWhile Char.isAlpha = w := by
    rw [List.takeWhile_append_of_pos hletters]
    cases r with
    | nil => simp
    | cons c r => simp [List.takeWhile_cons_of_neg, hr c rfl]
  unfold parityWord
  simp only [htake, List.drop_left]
  rcases hw with ⟨hw, rfl⟩ | ⟨hw, rfl⟩
  · rw [if_pos ((sameIgnoringAsciiCase_ofList _ _).mpr (by rw [hw]; decide))]
  · rw [if_neg (by rw [sameIgnoringAsciiCase_ofList, hw]; decide),
      if_pos ((sameIgnoringAsciiCase_ofList _ _).mpr (by rw [hw]; decide))]

theorem fitsInt64_sign_mul {σ v : Int} (hσ : σ = 1 ∨ σ = -1) (hv : 0 ≤ v) (hle : v ≤ maxInt64) :
    fitsInt64 (σ * v) = true := by
  have h63 : Int.pow 2 63 = 9223372036854775808 := by decide
  simp only [fitsInt64, maxInt64, minInt64, h63, decide_eq_true_eq] at hle ⊢
  rcases hσ with rfl | rfl <;> omega

theorem SignText.sign {s : List Char} {σ : Int} (h : SignText s σ) : σ = 1 ∨ σ = -1 := by
  cases h <;> simp

theorem IntegerText.nonneg {es : List Char} {v : Int} (h : IntegerText es v) : 0 ≤ v :=
  h.value ▸ Int.natCast_nonneg _

theorem StepText.facts {ds : List Char} {k : Int} (h : StepText ds k) : 0 ≤ k ∧ k ≤ maxInt64 := by
  rcases h with ⟨-, rfl⟩ | h
  · exact ⟨by decide, by decide⟩
  · exact ⟨h.nonneg, h.fits⟩

theorem stepText_of_digitRun {r0 afterN : List Char} {c : Char}
    (h : (match digitRun r0 with
      | some (_, r) => r
      | none => r0) = c :: afterN) :
    ∃ ds, r0 = ds ++ c :: afterN ∧ StepText ds (((digitRun r0).map Prod.fst).getD 1) := by
  cases hd : digitRun r0 with
  | none =>
    rw [hd] at h
    exact ⟨[], h, .inl ⟨rfl, rfl⟩⟩
  | some p =>
    obtain ⟨v, r1⟩ := p
    rw [hd] at h
    obtain ⟨ds, hr0, hds, -⟩ := digitRun_sound hd
    exact ⟨ds, h ▸ hr0, .inr hds⟩

theorem withoutN_sound {s r0 r : List Char} {σ : Int} {f : Nth} (hs : SignText s σ)
    (h : nthFormula.withoutN (s ++ r0) (digitRun r0) σ = some (f, r)) :
    ∃ body, s ++ r0 = body ++ r ∧ FormulaText body f := by
  unfold nthFormula.withoutN at h
  split at h
  · rename_i v r1 hd
    obtain ⟨es, rfl, hes, -⟩ := digitRun_sound hd
    split at h
    · cases h
      exact ⟨s ++ es, by simp, .offset hs hes⟩
    · cases h
  · obtain ⟨w, hw, hf, -⟩ := parityWord_sound h
    exact ⟨w, hw, hf⟩

/-- What `nthFormula` reads is a formula of the grammar, in front of the rest it answers. -/
theorem nthFormula_sound {cs r : List Char} {f : Nth} (h : nthFormula cs = some (f, r)) :
    ∃ body, cs = body ++ r ∧ FormulaText body f := by
  obtain ⟨s, hs, hcs⟩ := signOf_getD cs
  unfold nthFormula at h
  generalize (signOf cs).getD (1, cs) = sg at h hs hcs
  obtain ⟨σ, r0⟩ := sg
  dsimp only at h hs hcs
  subst hcs
  split at h
  · rename_i c afterN hr1
    obtain ⟨ds, hr0, hds⟩ := stepText_of_digitRun hr1
    generalize ((digitRun r0).map Prod.fst).getD 1 = k at h hds
    split at h
    · rename_i hn
      split at h
      · cases h
      -- `N` was read: what follows is an offset, or the formula ends at `N`
      have hbody : s ++ r0 = s ++ ds ++ [c] ++ afterN := by simp [hr0]
      split at h
      · rename_i τ r2 hsign
        obtain ⟨o, ho, hτ⟩ := signOf_eq_some hsign
        split at h
        · rename_i v r3 hd
          obtain ⟨es, hes_eq, hes, -⟩ := digitRun_sound hd
          split at h
          · cases h
            have hafter : afterN =
                afterN.takeWhile isBlank ++ [o] ++ r2.takeWhile isBlank ++ es ++ r := by
              have h1 : afterN = afterN.takeWhile isBlank ++ skipBlanks afterN :=
                List.takeWhile_append_dropWhile.symm
              have h2 : r2 = r2.takeWhile isBlank ++ skipBlanks r2 :=
                List.takeWhile_append_dropWhile.symm
              rw [ho, h2, hes_eq] at h1
              simpa using h1
            have hg₁ := blanks_takeWhile afterN
            have hg₂ := blanks_takeWhile r2
            generalize afterN.takeWhile isBlank = g₁ at hafter hg₁
            generalize r2.takeWhile isBlank = g₂ at hafter hg₂
            rw [hafter] at hbody
            exact ⟨s ++ ds ++ [c] ++ (g₁ ++ [o] ++ g₂ ++ es), by simp [hbody],
              .step hs hds hn (.signed hg₁ hτ hg₂ hes)⟩
          · cases h
        · cases h
          exact ⟨s ++ ds ++ [c] ++ [], by simp [hbody], .step hs hds hn .none⟩
      · cases h
        exact ⟨s ++ ds ++ [c] ++ [], by simp [hbody], .step hs hds hn .none⟩
    · exact withoutN_sound hs h
  · exact withoutN_sound hs h

theorem isAsciiDigit_of_isN {n : Char} (hn : IsN n) : isAsciiDigit n = false := by
  rcases hn with rfl | rfl <;> decide

theorem IsN.toNat {n : Char} (hn : IsN n) : 48 ≤ n.toNat := by
  rcases hn with rfl | rfl <;> decide

theorem IntegerText.head {es : List Char} {v : Int} (h : IntegerText es v) :
    ∃ e rest, es = e :: rest ∧ 48 ≤ e.toNat := by
  obtain ⟨e, rest, rfl⟩ := List.exists_cons_of_ne_nil h.ne_nil
  exact ⟨e, rest, rfl, (isAsciiDigit_iff.mp (h.digits e List.mem_cons_self)).1⟩

theorem StepText.head {ds : List Char} {k : Int} {n : Char} (hds : StepText ds k) (hn : IsN n)
    (r : List Char) : ∃ e rest, ds ++ n :: r = e :: rest ∧ 48 ≤ e.toNat := by
  rcases hds with ⟨rfl, -⟩ | hds
  · exact ⟨n, r, rfl, hn.toNat⟩
  · obtain ⟨e, rest, rfl, he⟩ := hds.head
    exact ⟨e, rest ++ n :: r, rfl, he⟩

theorem parityWord_head {w l : List Char} (hw : w.map Char.toLower = l)
    (hl : l = ['o', 'd', 'd'] ∨ l = ['e', 'v', 'e', 'n']) :
    ∃ c rest, w = c :: rest ∧ c.isAlpha = true ∧ ¬ IsN c := by
  have halpha := isAlpha_of_map_toLower hw (by rcases hl with rfl | rfl <;> simp)
  cases w with
  | nil => rcases hl with rfl | rfl <;> simp at hw
  | cons c rest =>
    refine ⟨c, rest, rfl, halpha c List.mem_cons_self, ?_⟩
    rintro (rfl | rfl) <;> rcases hl with rfl | rfl <;> simp at hw

theorem FormulaText.head {body : List Char} {f : Nth} (h : FormulaText body f) :
    ∃ c rest, body = c :: rest ∧ 43 ≤ c.toNat := by
  have hsign : ∀ {s : List Char} {σ : Int} (r : List Char), SignText s σ → s ≠ [] →
      ∃ c rest, s ++ r = c :: rest ∧ 43 ≤ c.toNat := by
    intro s σ r hs hne
    cases hs with
    | none => exact absurd rfl hne
    | plus => exact ⟨'+', r, rfl, by decide⟩
    | minus => exact ⟨'-', r, rfl, by decide⟩
  cases h with
  | @step s ds t σ k v n hs hds hn _ =>
    by_cases hne : s = []
    · subst hne
      obtain ⟨e, rest, he, hle⟩ := hds.head hn t
      exact ⟨e, rest, by simpa using he, by omega⟩
    · obtain ⟨c, rest, hc, hle⟩ := hsign (ds ++ [n] ++ t) hs hne
      exact ⟨c, rest, by simpa using hc, hle⟩
  | @offset s es σ v hs hes =>
    by_cases hne : s = []
    · subst hne
      obtain ⟨e, rest, rfl, hle⟩ := hes.head
      exact ⟨e, rest, rfl, by omega⟩
    · exact hsign es hs hne
  | odd hw =>
    obtain ⟨c, rest, rfl, hc, -⟩ := parityWord_head hw (.inl rfl)
    exact ⟨c, rest, rfl, by have := isAlpha_iff.mp hc; omega⟩
  | even hw =>
    obtain ⟨c, rest, rfl, hc, -⟩ := parityWord_head hw (.inr rfl)
    exact ⟨c, rest, rfl, by have := isAlpha_iff.mp hc; omega⟩

theorem blanks_head_not_digit {trail : List Char} (ht : Blanks trail) :
    ∀ c ∈ trail.head?, isAsciiDigit c = false := by
  intro c hc
  exact isAsciiDigit_of_isBlank (ht c (List.mem_of_mem_head? hc))

theorem offsetText_read {t trail : List Char} {v : Int} (hoff : OffsetText t v)
    (ht : Blanks trail) :
    (t = [] ∧ v = 0 ∧ signOf (skipBlanks trail) = none) ∨
      ∃ τ r2 b, signOf (skipBlanks (t ++ trail)) = some (τ, r2) ∧
        digitRun (skipBlanks r2) = some (b, trail) ∧ fitsInt64 (τ * b) = true ∧ v = τ * b := by
  cases hoff with
  | none =>
    left
    refine ⟨rfl, rfl, ?_⟩
    rw [skipBlanks_eq_nil.mpr ht]
    rfl
  | @signed g₁ g₂ es o τ w hg₁ hτ hg₂ hes =>
    right
    have hnb : isBlank o = false := by
      rcases signText_ne_nil hτ with rfl | rfl <;> decide
    refine ⟨τ, g₂ ++ es ++ trail, w, ?_, ?_, fitsInt64_sign_mul hτ.sign hes.nonneg hes.fits, rfl⟩
    · rw [List.append_assoc, List.append_assoc, List.append_assoc, skipBlanks_blanks_append hg₁,
        List.singleton_append, skipBlanks_of_head (by simpa using hnb), signOf_cons hτ]
      simp
    · obtain ⟨e, es', rfl, he⟩ := hes.head
      have hnb : isBlank e = false := by
        rw [Bool.eq_false_iff, ne_eq, isBlank_iff]
        omega
      rw [List.append_assoc, skipBlanks_blanks_append hg₂, skipBlanks_of_head (by simpa using hnb)]
      exact digitRun_append hes (blanks_head_not_digit ht)

theorem parityWord_formula {w trail : List Char} {f : Nth}
    (hw : w.map Char.toLower = ['o', 'd', 'd'] ∧ f = ⟨2, 1⟩ ∨
      w.map Char.toLower = ['e', 'v', 'e', 'n'] ∧ f = ⟨2, 0⟩)
    (ht : Blanks trail) : nthFormula (w ++ trail) = some (f, trail) := by
  obtain ⟨c, rest, rfl, hc, hn⟩ : ∃ c rest, w = c :: rest ∧ c.isAlpha = true ∧ ¬ IsN c := by
    rcases hw with ⟨hw, -⟩ | ⟨hw, -⟩
    · exact parityWord_head hw (.inl rfl)
    · exact parityWord_head hw (.inr rfl)
  have hsig : (signOf (c :: (rest ++ trail))).getD (1, c :: (rest ++ trail)) =
      (1, c :: (rest ++ trail)) := by
    have := isAlpha_iff.mp hc
    exact signOf_getD_append SignText.none (by simpa using not_sign_of_range (by omega))
  have hword : parityWord (c :: rest ++ trail) = some (f, trail) :=
    parityWord_append hw fun d hd => isAlpha_of_isBlank (ht d (List.mem_of_mem_head? hd))
  rw [List.cons_append] at hword ⊢
  unfold nthFormula
  rw [hsig]
  dsimp only
  rw [digitRun_of_head (by simpa using isAsciiDigit_of_isAlpha hc)]
  simp only [IsN] at hn
  simp [hn, nthFormula.withoutN, hword]

/-- Reading a formula followed by blanks stops right after it, with its value. -/
theorem nthFormula_complete {body trail : List Char} {f : Nth} (hb : FormulaText body f)
    (ht : Blanks trail) : nthFormula (body ++ trail) = some (f, trail) := by
  cases hb with
  | @step s ds t σ k v n hs hds hn hoff =>
    have hk := hds.facts
    have hfit : fitsInt64 (σ * k) = true := fitsInt64_sign_mul hs.sign hk.1 hk.2
    have hsig : (signOf (s ++ (ds ++ n :: (t ++ trail)))).getD (1, s ++ (ds ++ n :: (t ++ trail))) =
        (σ, ds ++ n :: (t ++ trail)) := by
      apply signOf_getD_append hs
      obtain ⟨e, rest, he, hle⟩ := hds.head hn (t ++ trail)
      rw [he]
      simpa using not_sign_of_range hle
    simp only [List.append_assoc, List.cons_append, List.nil_append]
    unfold nthFormula
    rw [hsig]
    dsimp only
    -- the step is written or not; after its digits the same `N` and offset are read
    rcases hds with ⟨rfl, rfl⟩ | hint
    case' inl => rw [digitRun_of_head (by simp [isAsciiDigit_of_isN hn])]
    case' inr => rw [digitRun_append hint (by simp [isAsciiDigit_of_isN hn])]
    all_goals
      have hn' : n = 'n' ∨ n = 'N' := hn
      simp only [Option.map_some, Option.map_none, Option.getD_some, Option.getD_none,
        List.nil_append, hn', if_true, hfit, Bool.not_true, Bool.false_eq_true, if_false]
      rcases offsetText_read hoff ht with ⟨rfl, rfl, h1⟩ | ⟨τ, r2, b, h1, h2, h3, rfl⟩
      · simp [h1]
      · simp [h1, h2, h3]
  | @offset s es σ v hs hes =>
    have hsig : (signOf (s ++ (es ++ trail))).getD (1, s ++ (es ++ trail)) = (σ, es ++ trail) := by
      apply signOf_getD_append hs
      obtain ⟨e, rest, rfl, hle⟩ := hes.head
      simpa using not_sign_of_range hle
    have hfit : fitsInt64 (σ * v) = true := fitsInt64_sign_mul hs.sign hes.nonneg hes.fits
    rw [List.append_assoc]
    unfold nthFormula
    rw [hsig]
    dsimp only
    rw [digitRun_append hes (blanks_head_not_digit ht)]
    -- what follows the integer is blank, so it is no `N`
    cases trail with
    | nil => simp [nthFormula.withoutN, hfit]
    | cons c trail =>
      have hc : ¬ (c = 'n' ∨ c = 'N') := by
        have := isBlank_iff.mp (ht c List.mem_cons_self)
        rintro (rfl | rfl) <;> simp at this
      simp [nthFormula.withoutN, hc, hfit]
  | odd hw => exact parityWord_formula (.inl ⟨hw, rfl⟩) ht
  | even hw => exact parityWord_formula (.inr ⟨hw, rfl⟩) ht

/-- An An+B argument reads exactly when it is blanks, a formula of the grammar and blanks, and
it reads as the value of that formula. -/
theorem Nth.parse?_eq_some_iff (text : String) (f : Nth) :
    Nth.parse? text = some f ↔ NthText text.toList f := by
  unfold Nth.parse?
  constructor
  · intro h
    split at h
    · rename_i f' rest hread
      split at h
      · rename_i hrest
        cases h
        obtain ⟨body, hbody, hf⟩ := nthFormula_sound hread
        refine ⟨text.toList.takeWhile isBlank, body, rest, ?_, blanks_takeWhile _, hf,
          skipBlanks_eq_nil.mp (List.isEmpty_iff.mp hrest)⟩
        rw [List.append_assoc, ← hbody]
        exact List.takeWhile_append_dropWhile.symm
      · cases h
    · cases h
  · rintro ⟨lead, body, trail, htext, hlead, hf, htrail⟩
    obtain ⟨c, rest, hbody, hc⟩ := hf.head
    have hskip : skipBlanks text.toList = body ++ trail := by
      rw [htext, List.append_assoc, skipBlanks_blanks_append hlead, skipBlanks_of_head]
      rw [hbody]
      have : ¬ isBlank c = true := by rw [isBlank_iff]; omega
      simpa using this
    rw [hskip, nthFormula_complete hf htrail]
    simp [skipBlanks_eq_nil.mpr htrail]

example : Nth.parse? " -n + 3 " = some ⟨-1, 3⟩ := by decide

example : Nth.parse? "2n+-1" = none := by decide

end TreeQuery.Selector

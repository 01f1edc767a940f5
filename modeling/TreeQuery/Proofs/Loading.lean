import TreeQuery.Proofs.Arena
import Mathlib.Data.String.Basic

/-!
# What loading a description builds

The outcome of `Tree.load` without its stack: `Description.numbering` lists the nodes in the
order they are numbered, and `Tree.Loading` is what one step of `Tree.grow` keeps.
-/

namespace TreeQuery

namespace Json.Value

/-- A value a property may have: a string, a number or a boolean. -/
def isScalar : Json.Value → Bool
  | .string _ | .bool _ | .number _ => true
  | _ => false

/-- The text a property value is kept as; numbers and booleans in their JSON spelling. -/
def scalarText : Json.Value → String
  | .string s => s
  | .bool b => if b then "true" else "false"
  | .number n => n.text
  | _ => ""

theorem propertyText_eq (v : Json.Value) :
    propertyText v = if v.isScalar then some v.scalarText else none := by
  cases v <;> rfl

end Json.Value

namespace Description

def firstInvalid (d : Description) : Option String :=
  (d.properties.find? fun p => !p.2.isScalar).map Prod.fst

def data (d : Description) : NodeData :=
  { id := d.id, types := d.typeName :: d.aliases,
    properties := ⟨d.properties.map fun p => (p.1, p.2.scalarText)⟩ }

def firstError (L : List Description) : Option LoadError :=
  L.findSome? fun d => d.firstInvalid.map (.invalidProperty d.data.label)

/-- Property names strictly ascending, as reading a description leaves them. -/
def PropertiesSorted (d : Description) : Prop := (d.properties.map Prod.fst).Pairwise (· < ·)

mutual

/-- The nodes strictly below a description, in the order loading numbers them: the children,
then what lies below each child, the last child's first. -/
def descendants : Description → List Description
  | ⟨_, _, _, _, children⟩ => children ++ descendantsAll children

def descendantsAll : List Description → List Description
  | [] => []
  | d :: ds => descendantsAll ds ++ descendants d

end

/-- The nodes of a description in the order loading numbers them. -/
def numbering (d : Description) : List Description := d :: d.descendants

mutual

/-- Every property value of every node is a string, number or boolean. -/
def Valid : Description → Prop
  | ⟨_, _, _, properties, children⟩ => (∀ p ∈ properties, p.2.isScalar = true) ∧ AllValid children

def AllValid : List Description → Prop
  | [] => True
  | d :: ds => Valid d ∧ AllValid ds

end

mutual

theorem length_descendants : ∀ d : Description, d.descendants.length + 1 = d.count
  | ⟨_, _, _, _, children⟩ => by
    have h := length_descendantsAll children
    simp only [descendants, count, List.length_append]
    omega

theorem length_descendantsAll :
    ∀ ds : List Description, (descendantsAll ds).length + ds.length = countAll ds
  | [] => rfl
  | d :: ds => by
    have hd := length_descendants d
    have hds := length_descendantsAll ds
    simp only [descendantsAll, countAll, List.length_append, List.length_cons]
    omega

end

theorem length_numbering (d : Description) : d.numbering.length = d.count := by
  simp only [numbering, List.length_cons, length_descendants]

theorem descendants_eq (d : Description) :
    d.descendants = d.children ++ descendantsAll d.children := by
  cases d
  rfl

theorem mem_descendantsAll {D : Description} {ds : List Description} (h : D ∈ descendantsAll ds) :
    ∃ c ∈ ds, D ∈ c.descendants := by
  induction ds with
  | nil => simp [descendantsAll] at h
  | cons c cs ih =>
    rw [descendantsAll, List.mem_append] at h
    rcases h with h | h
    · obtain ⟨c', hc', hD⟩ := ih h
      exact ⟨c', List.mem_cons_of_mem c hc', hD⟩
    · exact ⟨c, List.mem_cons_self, h⟩

theorem mem_descendants {D d : Description} (h : D ∈ d.descendants) :
    ∃ c ∈ d.children, D ∈ c.numbering := by
  rw [descendants_eq, List.mem_append] at h
  rcases h with h | h
  · exact ⟨D, h, List.mem_cons_self⟩
  · obtain ⟨c, hc, hD⟩ := mem_descendantsAll h
    exact ⟨c, hc, List.mem_cons_of_mem c hD⟩

theorem firstInvalid_eq_none_iff (d : Description) :
    d.firstInvalid = none ↔ ∀ p ∈ d.properties, p.2.isScalar = true := by
  simp [firstInvalid, List.find?_eq_none]

theorem firstError_eq_none_iff (L : List Description) :
    firstError L = none ↔ ∀ d ∈ L, d.firstInvalid = none := by
  simp [firstError, List.findSome?_eq_none_iff]

theorem firstError_append (L M : List Description) :
    firstError (L ++ M) = (firstError L).or (firstError M) := by
  simp only [firstError, List.findSome?_append]

theorem firstError_cons_of_firstInvalid {d : Description} {name : String}
    (h : d.firstInvalid = some name) (L : List Description) :
    firstError (d :: L) = some (.invalidProperty d.data.label name) := by
  simp [firstError, h]

theorem firstError_cons_of_valid {d : Description} (h : d.firstInvalid = none)
    (L : List Description) : firstError (d :: L) = firstError L := by
  simp [firstError, h]

mutual

theorem valid_iff : ∀ d : Description, d.Valid ↔ ∀ D ∈ d.numbering, D.firstInvalid = none
  | ⟨typeName, id, aliases, properties, children⟩ => by
    have h := allValid_iff children
    have hd := firstInvalid_eq_none_iff ⟨typeName, id, aliases, properties, children⟩
    simp only [Valid, h, numbering, descendants, List.forall_mem_cons]
    exact and_congr_left' hd.symm

theorem allValid_iff :
    ∀ ds : List Description, AllValid ds ↔ ∀ D ∈ ds ++ descendantsAll ds, D.firstInvalid = none
  | [] => by simp [AllValid, descendantsAll]
  | d :: ds => by
    have hd := valid_iff d
    have hds := allValid_iff ds
    simp only [AllValid, hd, hds, numbering, descendantsAll, List.cons_append,
      List.forall_mem_cons, List.forall_mem_append]
    tauto

end

section Sorting

variable {α : Type}

theorem names_insertByName (k : String) (v : α) (L : List (String × α)) :
    ∀ x ∈ (insertByName k v L).map Prod.fst, x = k ∨ x ∈ L.map Prod.fst := by
  induction L with
  | nil => simp [insertByName]
  | cons e rest ih =>
    obtain ⟨k', v'⟩ := e
    simp only [insertByName]
    split_ifs
    · simp
    · intro x hx
      simp only [List.map_cons, List.mem_cons] at hx ⊢
      rcases hx with hx | hx
      · exact Or.inl hx
      · exact Or.inr (Or.inr hx)
    · intro x hx
      simp only [List.map_cons, List.mem_cons] at hx ⊢
      rcases hx with hx | hx
      · exact Or.inr (Or.inl hx)
      · rcases ih x hx with h | h
        · exact Or.inl h
        · exact Or.inr (Or.inr h)

theorem sorted_insertByName (k : String) (v : α) {L : List (String × α)}
    (h : (L.map Prod.fst).Pairwise (· < ·)) :
    ((insertByName k v L).map Prod.fst).Pairwise (· < ·) := by
  induction L with
  | nil => simp [insertByName]
  | cons e rest ih =>
    obtain ⟨k', v'⟩ := e
    rw [List.map_cons, List.pairwise_cons] at h
    obtain ⟨hk', hrest⟩ := h
    simp only [insertByName]
    split_ifs with hlt heq
    · simp only [List.map_cons, List.pairwise_cons, List.mem_cons, forall_eq_or_imp]
      exact ⟨⟨hlt, fun y hy => lt_trans hlt (hk' y hy)⟩, hk', hrest⟩
    · subst heq
      simp only [List.map_cons, List.pairwise_cons]
      exact ⟨hk', hrest⟩
    · -- the new name goes after `k'`
      have hgt : k' < k := lt_of_le_of_ne (le_of_not_gt hlt) (Ne.symm heq)
      simp only [List.map_cons, List.pairwise_cons]
      refine ⟨fun y hy => ?_, ih hrest⟩
      rcases names_insertByName k v rest y hy with rfl | hy
      · exact hgt
      · exact hk' y hy

theorem sorted_byName (members : List (String × α)) :
    ((byName members).map Prod.fst).Pairwise (· < ·) := by
  suffices ∀ acc : List (String × α), (acc.map Prod.fst).Pairwise (· < ·) →
      ((members.foldl (fun acc (m : String × α) => insertByName m.1 m.2 acc) acc).map
        Prod.fst).Pairwise (· < ·) from this [] List.Pairwise.nil
  induction members with
  | nil => exact fun acc h => h
  | cons m ms ih => exact fun acc h => ih _ (sorted_insertByName m.1 m.2 h)

end Sorting

theorem mem_of_mapM_eq_some {α β : Type} {f : α → Option β} :
    ∀ {xs : List α} {ys : List β}, xs.mapM f = some ys → ∀ y ∈ ys, ∃ x ∈ xs, f x = some y
  | [], ys, h => by
    simp only [List.mapM_nil, pure, Option.some.injEq] at h
    simp [← h]
  | x :: xs, ys, h => by
    simp only [List.mapM_cons, Option.bind_eq_bind, Option.bind_eq_some_iff, pure,
      Option.some.injEq] at h
    obtain ⟨y', hy', ys', hys', rfl⟩ := h
    intro y hy
    rcases List.mem_cons.mp hy with rfl | hy
    · exact ⟨x, List.mem_cons_self, hy'⟩
    · obtain ⟨x', hx', hfx'⟩ := mem_of_mapM_eq_some hys' y hy
      exact ⟨x', List.mem_cons_of_mem x hx', hfx'⟩

theorem sorted_of_propertiesOf {v : Json.Value} {ps : List (String × Json.Value)}
    (h : propertiesOf v = some ps) : (ps.map Prod.fst).Pairwise (· < ·) := by
  cases v <;> simp only [propertiesOf, reduceCtorEq, Option.some.injEq] at h
  subst h
  exact sorted_byName _

theorem ofValue_succ {fuel : Nat} {v : Json.Value} {d : Description}
    (h : ofValue (fuel + 1) v = some d) :
    d.PropertiesSorted ∧ ∀ c ∈ d.children, ∃ w, ofValue fuel w = some c := by
  cases v <;> simp only [ofValue, reduceCtorEq] at h
  -- both spellings of a description read the properties and the children alike
  case object ms | array items =>
    split at h
    · cases h
    · simp only [Option.bind_eq_bind, Option.bind_eq_some_iff, pure, Option.some.injEq] at h
      obtain ⟨_, _, _, _, _, _, ps, hp, ch, hc, rfl⟩ := h
      refine ⟨?_, fun c hcm => ?_⟩
      · split at hp
        · cases hp
          exact List.Pairwise.nil
        · exact sorted_of_propertiesOf hp
      · split at hc
        · cases hc
          cases hcm
        · split at hc
          · obtain ⟨w, -, hw⟩ := mem_of_mapM_eq_some hc c hcm
            exact ⟨w, hw⟩
          · cases hc

theorem ofValue_sorted : ∀ {fuel : Nat} {v : Json.Value} {d : Description},
    ofValue fuel v = some d → ∀ D ∈ d.numbering, D.PropertiesSorted
  | 0, _, _, h => by simp [ofValue] at h
  | fuel + 1, _, d, h => by
    obtain ⟨hd, hch⟩ := ofValue_succ h
    intro D hD
    rcases List.mem_cons.mp hD with rfl | hD
    · exact hd
    · obtain ⟨c, hc, hD⟩ := mem_descendants hD
      obtain ⟨w, hw⟩ := hch c hc
      exact ofValue_sorted hw D hD

def insertValue (P : Properties) (p : String × Json.Value) : Properties := P.insert p.1 p.2.scalarText

theorem foldlM_convert (x : NodeData) (L : List (String × Json.Value)) :
    L.foldlM toData.convert x =
      match L.find? (fun p => !p.2.isScalar) with
      | some p => .error (.invalidProperty x.label p.1)
      | none => .ok { x with
          properties := L.foldl insertValue x.properties } := by
  induction L generalizing x with
  | nil => rfl
  | cons p L ih =>
    obtain ⟨k, v⟩ := p
    rw [List.foldlM_cons]
    cases hv : v.isScalar with
    | true =>
      simp only [toData.convert, Json.Value.propertyText_eq, hv, if_true, bind, Except.bind,
        ih, List.find?_cons, Bool.not_true, List.foldl_cons]
      rfl
    | false =>
      simp only [toData.convert, Json.Value.propertyText_eq, hv, bind, Except.bind,
        List.find?_cons, Bool.not_false]
      rfl

theorem insertSorted_of_lt {k s : String} {es : List (String × String)}
    (h : ∀ e ∈ es, e.1 < k) : Properties.insertSorted k s es = es ++ [(k, s)] := by
  induction es with
  | nil => rfl
  | cons e es ih =>
    obtain ⟨k', v⟩ := e
    have hk' : k' < k := h (k', v) List.mem_cons_self
    simp only [Properties.insertSorted, if_neg (lt_asymm hk'), if_neg (ne_of_gt hk'),
      List.cons_append, ih fun e he => h e (List.mem_cons_of_mem _ he)]

theorem foldl_insert_of_sorted {L : List (String × Json.Value)} (hL : (L.map Prod.fst).Pairwise (· < ·))
    {es : List (String × String)} (hes : ∀ e ∈ es, ∀ p ∈ L, e.1 < p.1) :
    L.foldl insertValue ⟨es⟩ =
      ⟨es ++ L.map fun p => (p.1, p.2.scalarText)⟩ := by
  induction L generalizing es with
  | nil => simp
  | cons p L ih =>
    rw [List.map_cons, List.pairwise_cons] at hL
    obtain ⟨hp, hL⟩ := hL
    rw [List.foldl_cons, insertValue, Properties.insert,
      insertSorted_of_lt fun e he => hes e he p List.mem_cons_self, ih hL]
    · simp
    · intro e he q hq
      rcases List.mem_append.mp he with he | he
      · exact hes e he q (List.mem_cons_of_mem p hq)
      · simp only [List.mem_singleton] at he
        subst he
        exact hp q.1 (List.mem_map_of_mem hq)

theorem toData_eq (d : Description) :
    d.toData = match d.firstInvalid with
      | some name => .error (.invalidProperty d.data.label name)
      | none => .ok {
          id := d.id, types := d.typeName :: d.aliases,
          properties := d.properties.foldl insertValue {} } := by
  rw [toData, foldlM_convert, firstInvalid]
  cases d.properties.find? fun p => !p.2.isScalar <;> rfl

theorem toData_of_sorted {d : Description} (hs : d.PropertiesSorted) (hv : d.firstInvalid = none) :
    d.toData = .ok d.data := by
  rw [toData_eq, hv]
  simp only [data]
  rw [show ({} : Properties) = ⟨[]⟩ from rfl, foldl_insert_of_sorted hs (by simp)]
  rfl

theorem toData_eq_error_iff {d : Description} {e : LoadError} :
    d.toData = .error e ↔ (d.firstInvalid.map (.invalidProperty d.data.label)) = some e := by
  rw [toData_eq]
  cases d.firstInvalid <;> simp

end Description

namespace Tree

section Append

variable {t : Tree} {p : Nat} (x : NodeData)

theorem data_of_size_le {i : Nat} (h : t.size ≤ i) : t.data i = { types := [] } := by
  simp [data, get?_eq_none h]

theorem lt_size_of_data_eq {i : Nat} {d : Description} (h : t.data i = d.data) : i < t.size := by
  by_contra hi
  rw [data_of_size_le (Nat.le_of_not_lt hi)] at h
  cases congrArg NodeData.types h

theorem parent_size : t.parent t.size = none :=
  Option.eq_none_iff_forall_ne_some.mpr fun _ h => Nat.lt_irrefl _ (lt_size_of_parent h)

theorem attachable_fresh (hwf : t.WellFormed) (hp : p < t.size) :
    (t.alloc x).1.attachable p t.size = true := by
  rw [(hwf.alloc x).attachable_iff]
  refine ⟨by simp only [size_alloc]; omega, by simp only [size_alloc]; omega,
    Nat.pos_iff_ne_zero.mp hwf.root_exists, by rw [parent_alloc, parent_size], by omega, ?_⟩
  rw [isAncestor_congr (parent_alloc t x)]
  intro h
  exact Nat.lt_irrefl _ (hwf.lt_size_of_isAncestor h)

theorem append_eq : t.append p x = ((t.alloc x).1.appendChild p t.size, t.size) := rfl

@[simp] theorem size_append : (t.append p x).1.size = t.size + 1 := by
  rw [append_eq, size_appendChild, size_alloc]

theorem data_append (i : Nat) : (t.append p x).1.data i = if i = t.size then x else t.data i := by
  rw [append_eq, data_appendChild, data_alloc]

theorem children_append (hwf : t.WellFormed) (hp : p < t.size) (i : Nat) :
    (t.append p x).1.children i = if i = p then t.children p ++ [t.size] else t.children i := by
  rw [append_eq, children_appendChild (attachable_fresh x hwf hp), children_alloc, children_alloc]

theorem parent_append (hwf : t.WellFormed) (hp : p < t.size) (i : Nat) :
    (t.append p x).1.parent i = if i = t.size then some p else t.parent i := by
  rw [append_eq, parent_appendChild (attachable_fresh x hwf hp), parent_alloc]

end Append

/-- What appending the nodes of `K` under `p` does to `t`. -/
structure Placed (t t' : Tree) (p : Nat) (K : List Description) : Prop where
  wf : t'.WellFormed
  size_eq : t'.size = t.size + K.length
  data_old : ∀ i < t.size, t'.data i = t.data i
  data_new : (List.range' t.size K.length).map t'.data = K.map Description.data
  children_eq : ∀ i, t'.children i =
    if i = p then t.children p ++ List.range' t.size K.length else t.children i
  parent_old : ∀ i < t.size, t'.parent i = t.parent i
  parent_new : ∀ i, t.size ≤ i → i < t'.size → t'.parent i = some p

/-- The entries pushed while numbering siblings from `n`, first sibling first. -/
def pendingEntries (n : Nat) : List Description → List (Nat × List Description)
  | [] => []
  | k :: ks => (if k.children.isEmpty then [] else [(n, k.children)]) ++ pendingEntries (n + 1) ks

theorem placed_nil {t : Tree} (hwf : t.WellFormed) (p : Nat) : Placed t t p [] where
  wf := hwf
  size_eq := rfl
  data_old _ _ := rfl
  data_new := rfl
  children_eq i := by
    split
    · subst i
      simp
    · rfl
  parent_old _ _ := rfl
  parent_new i h h' := by omega

theorem Placed.cons {t t' : Tree} {p : Nat} {k : Description} {K : List Description}
    (hwf : t.WellFormed) (hp : p < t.size) (h : Placed (t.append p k.data).1 t' p K) :
    Placed t t' p (k :: K) where
  wf := h.wf
  size_eq := by rw [h.size_eq, size_append, List.length_cons]; omega
  data_old i hi := by
    rw [h.data_old i (by rw [size_append]; omega), data_append, if_neg (Nat.ne_of_lt hi)]
  data_new := by
    have hk := h.data_old t.size (by rw [size_append]; omega)
    rw [data_append, if_pos rfl] at hk
    rw [List.length_cons, List.range'_succ, List.map_cons, List.map_cons, hk, ← size_append k.data,
      h.data_new]
  children_eq i := by
    rw [h.children_eq, children_append _ hwf hp, children_append _ hwf hp, size_append,
      List.length_cons, List.range'_succ]
    split <;> simp
  parent_old i hi := by
    rw [h.parent_old i (by rw [size_append]; omega), parent_append _ hwf hp,
      if_neg (Nat.ne_of_lt hi)]
  parent_new i hi hi' := by
    rcases Nat.lt_or_ge t.size i with hlt | hge
    · exact h.parent_new i (by rw [size_append]; omega) hi'
    · rw [h.parent_old i (by rw [size_append]; omega), parent_append _ hwf hp,
        if_pos (by omega)]

theorem place_cons (p : Nat) (t : Tree) (acc : List (Nat × List Description)) (k : Description)
    (K : List Description) :
    (k :: K).foldlM (grow.place p) (t, acc) = (do
      let x ← k.toData
      K.foldlM (grow.place p) ((t.append p x).1,
        if k.children.isEmpty then acc else (t.size, k.children) :: acc)) := by
  rw [List.foldlM_cons]
  simp only [grow.place]
  cases k.toData <;> rfl

theorem place_result (p : Nat) : ∀ (K : List Description) (t : Tree)
    (acc : List (Nat × List Description)),
    (∃ e, Description.firstError K = some e ∧ K.foldlM (grow.place p) (t, acc) = .error e) ∨
    (Description.firstError K = none ∧
      ∃ t', K.foldlM (grow.place p) (t, acc) = .ok (t', (pendingEntries t.size K).reverse ++ acc))
  | [], t, acc => Or.inr ⟨rfl, t, rfl⟩
  | k :: K, t, acc => by
    rw [place_cons]
    cases hk : k.firstInvalid with
    | some name =>
      refine Or.inl ⟨_, Description.firstError_cons_of_firstInvalid hk K, ?_⟩
      rw [Description.toData_eq, hk]
      rfl
    | none =>
      rw [Description.firstError_cons_of_valid hk, Description.toData_eq, hk]
      rcases place_result p K _ (if k.children.isEmpty then acc else (t.size, k.children) :: acc)
        with ⟨e, he, hf⟩ | ⟨he, t', hf⟩
      · exact Or.inl ⟨e, he, hf⟩
      · refine Or.inr ⟨he, t', ?_⟩
        rw [size_append] at hf
        simp only [bind, Except.bind, hf, pendingEntries, List.reverse_append]
        split <;> simp

theorem place_placed {p : Nat} (hsorted : ∀ k ∈ K, k.PropertiesSorted) :
    ∀ {t t' : Tree} {acc acc' : List (Nat × List Description)}, t.WellFormed → p < t.size →
      K.foldlM (grow.place p) (t, acc) = .ok (t', acc') → Placed t t' p K := by
  induction K with
  | nil =>
    intro t t' acc acc' hwf _ hf
    cases hf
    exact placed_nil hwf p
  | cons k K ih =>
    intro t t' acc acc' hwf hp hf
    rw [place_cons] at hf
    have hk : k.firstInvalid = none := by
      cases h : k.firstInvalid with
      | none => rfl
      | some name =>
        rw [Description.toData_eq, h] at hf
        cases hf
    rw [Description.toData_of_sorted (hsorted k List.mem_cons_self) hk] at hf
    refine Placed.cons hwf hp (ih (fun k hk => hsorted k (List.mem_cons_of_mem _ hk))
      (hwf.apply (.append p k.data)) (by rw [size_append]; omega) hf)

/-- The descriptions a stack of entries still has to number, in the order it numbers them. -/
def pendingOf (S : List (Nat × List Description)) : List Description :=
  S.flatMap fun e => e.2 ++ Description.descendantsAll e.2

/-- What bounds the steps loading still takes: the pending descriptions and entries. -/
def loadMeasure (S : List (Nat × List Description)) : Nat := (pendingOf S).length + S.length

theorem pendingOf_cons (e : Nat × List Description) (S : List (Nat × List Description)) :
    pendingOf (e :: S) = e.2 ++ Description.descendantsAll e.2 ++ pendingOf S := by
  simp [pendingOf]

theorem pendingOf_append (A B : List (Nat × List Description)) :
    pendingOf (A ++ B) = pendingOf A ++ pendingOf B := by
  simp [pendingOf]

theorem pendingOf_pendingEntries (n : Nat) (K : List Description) :
    pendingOf (pendingEntries n K).reverse = Description.descendantsAll K := by
  induction K generalizing n with
  | nil => rfl
  | cons k K ih =>
    rw [pendingEntries, List.reverse_append, pendingOf_append, ih, Description.descendantsAll,
      Description.descendants_eq]
    cases h : k.children.isEmpty
    · simp [pendingOf]
    · simp [List.isEmpty_iff.mp h, pendingOf, Description.descendantsAll]

theorem pendingEntries_bounds {n : Nat} {K : List Description} {e : Nat × List Description}
    (he : e ∈ pendingEntries n K) : n ≤ e.1 ∧ e.1 < n + K.length := by
  induction K generalizing n with
  | nil => cases he
  | cons k K ih =>
    rw [pendingEntries, List.mem_append] at he
    rcases he with he | he
    · split at he
      · cases he
      · rw [List.mem_singleton] at he
        subst he
        simp
    · have := ih he
      simp only [List.length_cons]
      omega

theorem pendingEntries_keys_sorted (n : Nat) (K : List Description) :
    ((pendingEntries n K).map Prod.fst).Pairwise (· < ·) := by
  induction K generalizing n with
  | nil => exact List.Pairwise.nil
  | cons k K ih =>
    rw [pendingEntries, List.map_append, List.pairwise_append]
    refine ⟨by split <;> simp, ih (n + 1), fun a ha b hb => ?_⟩
    obtain ⟨e, he, rfl⟩ := List.mem_map.mp hb
    have := (pendingEntries_bounds he).1
    split at ha
    · cases ha
    · simp only [List.map_cons, List.map_nil, List.mem_singleton] at ha
      omega

theorem length_pendingEntries_le (n : Nat) (K : List Description) :
    (pendingEntries n K).length ≤ K.length := by
  induction K generalizing n with
  | nil => exact Nat.le_refl 0
  | cons k K ih =>
    have := ih (n + 1)
    rw [pendingEntries, List.length_append, List.length_cons]
    split <;> simp only [List.length_nil, List.length_singleton] <;> omega

theorem pendingOf_take (n p : Nat) (K : List Description) (S : List (Nat × List Description)) :
    pendingOf ((p, K) :: S) = K ++ pendingOf ((pendingEntries n K).reverse ++ S) := by
  rw [pendingOf_cons, pendingOf_append, pendingOf_pendingEntries, List.append_assoc]

theorem loadMeasure_take (n p : Nat) (K : List Description) (S : List (Nat × List Description)) :
    loadMeasure ((pendingEntries n K).reverse ++ S) < loadMeasure ((p, K) :: S) := by
  have h := length_pendingEntries_le n K
  simp only [loadMeasure, pendingOf_take n p K S, List.length_append, List.length_cons,
    List.length_reverse]
  omega

mutual

/-- The subtree of `t` at node `i` is the description: the same data, and children that show
the description's children in order. -/
def Shows (t : Tree) : Nat → Description → Prop
  | i, ⟨typeName, id, aliases, properties, children⟩ =>
    t.data i = Description.data ⟨typeName, id, aliases, properties, children⟩ ∧
      ShowsAll t (t.children i) children

def ShowsAll (t : Tree) : List Nat → List Description → Prop
  | [], [] => True
  | i :: is, d :: ds => Shows t i d ∧ ShowsAll t is ds
  | _, _ => False

end

/-- What a tree loaded from a description is. -/
structure LoadedFrom (t : Tree) (d : Description) : Prop where
  shows : t.Shows 0 d
  numbered : (List.range t.size).map t.data = d.numbering.map Description.data
  size_eq : t.size = d.count
  reachable : ∀ i < t.size, i = 0 ∨ t.IsAncestor 0 i
  consecutive : ∀ p, ∃ k, t.children p = List.range' k (t.children p).length
  parent_lt : ∀ {c p}, t.parent c = some p → p < c

mutual

/-- Node `i` of `t` shows the description, except that below a node whose entry is still on
the stack `S` nothing is attached yet. -/
def Grows (t : Tree) (S : List (Nat × List Description)) : Nat → Description → Prop
  | i, ⟨typeName, id, aliases, properties, children⟩ =>
    t.data i = Description.data ⟨typeName, id, aliases, properties, children⟩ ∧
      ((i, children) ∈ S ∧ t.children i = [] ∨
        (∀ K, (i, K) ∉ S) ∧ GrowsAll t S (t.children i) children)

def GrowsAll (t : Tree) (S : List (Nat × List Description)) : List Nat → List Description → Prop
  | [], [] => True
  | i :: is, d :: ds => Grows t S i d ∧ GrowsAll t S is ds
  | _, _ => False

end

mutual

theorem Grows.shows {t : Tree} : ∀ {i : Nat} {d : Description}, t.Grows [] i d → t.Shows i d
  | _, ⟨_, _, _, _, _⟩, ⟨hd, h⟩ => by
    refine ⟨hd, ?_⟩
    rcases h with ⟨hmem, _⟩ | ⟨_, hall⟩
    · cases hmem
    · exact GrowsAll.shows hall

theorem GrowsAll.shows {t : Tree} :
    ∀ {is : List Nat} {ds : List Description}, t.GrowsAll [] is ds → t.ShowsAll is ds
  | [], [], _ => trivial
  | _ :: _, _ :: _, ⟨h, hs⟩ => ⟨Grows.shows h, GrowsAll.shows hs⟩
  | [], _ :: _, h => by simp [GrowsAll] at h
  | _ :: _, [], h => by simp [GrowsAll] at h

end

theorem growsAll_new {t : Tree} {S : List (Nat × List Description)} :
    ∀ {n : Nat} {K : List Description},
      (List.range' n K.length).map t.data = K.map Description.data →
      (∀ i, n ≤ i → i < n + K.length → t.children i = []) →
      (∀ e ∈ pendingEntries n K, e ∈ S) →
      (∀ e ∈ S, n ≤ e.1 → e.1 < n + K.length → e ∈ pendingEntries n K) →
      t.GrowsAll S (List.range' n K.length) K
  | _, [], _, _, _, _ => trivial
  | n, ⟨typeName, id, aliases, properties, children⟩ :: K, hdata, hch, hin, hout => by
    rw [List.length_cons, List.range'_succ, List.map_cons, List.map_cons, List.cons.injEq] at hdata
    have hn : t.children n = [] := hch n (Nat.le_refl n) (by simp)
    refine ⟨⟨hdata.1, ?_⟩, growsAll_new hdata.2
      (fun i h h' => hch i (by omega) (by simp only [List.length_cons]; omega))
      (fun e he => hin e (by rw [pendingEntries]; exact List.mem_append_right _ he))
      (fun e he h h' => ?_)⟩
    · cases children with
      | nil =>
        -- a leaf pushes no entry, so no entry names it
        refine Or.inr ⟨fun K' hK' => ?_, by rw [hn]; trivial⟩
        have hmem := hout _ hK' (Nat.le_refl n) (by simp)
        simp only [pendingEntries, List.isEmpty_nil, if_true, List.nil_append] at hmem
        have := (pendingEntries_bounds hmem).1
        simp at this
      | cons c cs =>
        exact Or.inl ⟨hin _ (by simp [pendingEntries]), hn⟩
    · have hmem := hout e he (by omega) (by simp only [List.length_cons] at h' ⊢; omega)
      rw [pendingEntries, List.mem_append] at hmem
      rcases hmem with hmem | hmem
      · split at hmem
        · cases hmem
        · rw [List.mem_singleton] at hmem
          subst hmem
          simp at h
      · exact hmem

section Take

variable {t t' : Tree} {p : Nat} {K : List Description} {S P : List (Nat × List Description)}

mutual

theorem Grows.take (hpl : Placed t t' p K)
    (hnew : t'.GrowsAll (P ++ S) (List.range' t.size K.length) K)
    (hkeys : ∀ e ∈ P, t.size ≤ e.1) (hfresh : ∀ K', (p, K') ∉ S) :
    ∀ {i : Nat} {d : Description}, t.Grows ((p, K) :: S) i d → t'.Grows (P ++ S) i d
  | i, ⟨typeName, id, aliases, properties, children⟩, ⟨hd, h⟩ => by
    have hi : i < t.size := lt_size_of_data_eq hd
    refine ⟨(hpl.data_old i hi).trans hd, ?_⟩
    have hP : ∀ K', (i, K') ∉ P := fun K' hK' => by
      have := hkeys _ hK'
      simp only at this
      omega
    rcases h with ⟨hmem, hch⟩ | ⟨hnot, hall⟩
    · rcases List.mem_cons.mp hmem with heq | hmem
      · -- the entry taken: its nodes are attached now
        obtain ⟨rfl, rfl⟩ := Prod.mk.inj heq
        refine Or.inr ⟨fun K' hK' => ?_, ?_⟩
        · rcases List.mem_append.mp hK' with hK' | hK'
          · exact hP K' hK'
          · exact hfresh K' hK'
        · rw [hpl.children_eq, if_pos rfl, hch, List.nil_append]
          exact hnew
      · have hip : i ≠ p := fun h => hfresh children (h ▸ hmem)
        refine Or.inl ⟨List.mem_append_right P hmem, ?_⟩
        rw [hpl.children_eq, if_neg hip, hch]
    · have hip : i ≠ p := fun h => hnot K (h ▸ List.mem_cons_self)
      refine Or.inr ⟨fun K' hK' => ?_, ?_⟩
      · rcases List.mem_append.mp hK' with hK' | hK'
        · exact hP K' hK'
        · exact hnot K' (List.mem_cons_of_mem _ hK')
      · rw [hpl.children_eq, if_neg hip]
        exact GrowsAll.take hpl hnew hkeys hfresh hall

theorem GrowsAll.take (hpl : Placed t t' p K)
    (hnew : t'.GrowsAll (P ++ S) (List.range' t.size K.length) K)
    (hkeys : ∀ e ∈ P, t.size ≤ e.1) (hfresh : ∀ K', (p, K') ∉ S) :
    ∀ {is : List Nat} {ds : List Description},
      t.GrowsAll ((p, K) :: S) is ds → t'.GrowsAll (P ++ S) is ds
  | [], [], _ => trivial
  | _ :: _, _ :: _, ⟨h, hs⟩ =>
    ⟨Grows.take hpl hnew hkeys hfresh h, GrowsAll.take hpl hnew hkeys hfresh hs⟩
  | [], _ :: _, h => by simp [GrowsAll] at h
  | _ :: _, [], h => by simp [GrowsAll] at h

end

end Take

/-- What holds while loading `d` with the entries `S` still on the stack: the nodes numbered so
far are a prefix of the numbering and the pending nodes the rest, every node grows its
description from the root, and the arena keeps its shape. -/
structure Loading (d : Description) (t : Tree) (S : List (Nat × List Description)) : Prop where
  wf : t.WellFormed
  numbered : ∃ done, d.numbering = done ++ pendingOf S ∧
    (List.range t.size).map t.data = done.map Description.data
  fresh : ∀ e ∈ S, e.1 < t.size ∧ t.children e.1 = []
  keys_nodup : (S.map Prod.fst).Nodup
  grows : t.Grows S 0 d
  parent_lt : ∀ {c p}, t.parent c = some p → p < c
  attached : ∀ i < t.size, i ≠ 0 → t.parent i ≠ none
  consecutive : ∀ p, ∃ k, t.children p = List.range' k (t.children p).length

theorem loading_start (d : Description) : Loading d (Tree.new d.data) [(0, d.children)] where
  wf := wellFormed_new d.data
  numbered := ⟨[d], by simp [Description.numbering, pendingOf, Description.descendants_eq], rfl⟩
  fresh e he := by
    rw [List.mem_singleton] at he
    subst he
    exact ⟨by simp [Tree.new, size], children_new _ 0⟩
  keys_nodup := by simp
  grows := by
    obtain ⟨typeName, id, aliases, properties, children⟩ := d
    exact ⟨rfl, Or.inl ⟨List.mem_singleton_self _, children_new _ 0⟩⟩
  parent_lt := by simp [parent_new]
  attached i hi h0 := by
    simp only [Tree.new, size, List.size_toArray, List.length_singleton] at hi
    omega
  consecutive _ := ⟨0, by simp [children_new]⟩

/-- One step of loading keeps the invariant. -/
theorem Loading.take {d : Description} (hsorted : ∀ D ∈ d.numbering, D.PropertiesSorted)
    {t t' : Tree} {p : Nat} {K : List Description} {S P : List (Nat × List Description)}
    (hL : Loading d t ((p, K) :: S)) (hf : K.foldlM (grow.place p) (t, []) = .ok (t', P)) :
    Loading d t' (P ++ S) := by
  obtain ⟨done, hnum, hmap⟩ := hL.numbered
  have hP : P = (pendingEntries t.size K).reverse := by
    rcases place_result p K t [] with ⟨e, -, he⟩ | ⟨-, t₁, h₁⟩
    · rw [he] at hf
      cases hf
    · rw [h₁, List.append_nil] at hf
      cases hf
      rfl
  subst hP
  have hKsorted : ∀ k ∈ K, k.PropertiesSorted := fun k hk =>
    hsorted k (by rw [hnum, pendingOf_cons]; simp [hk])
  obtain ⟨hp, hpch⟩ := hL.fresh (p, K) List.mem_cons_self
  have hpl := place_placed hKsorted hL.wf hp hf
  have hnodup := hL.keys_nodup
  rw [List.map_cons, List.nodup_cons] at hnodup
  dsimp only at hp hpch hnodup hpl
  have hSfresh : ∀ e ∈ S, e.1 < t.size ∧ e.1 ≠ p ∧ t.children e.1 = [] := fun e he =>
    have h := hL.fresh e (List.mem_cons_of_mem _ he)
    ⟨h.1, fun hep => hnodup.1 (List.mem_map.mpr ⟨e, he, hep⟩), h.2⟩
  have hkeys : ∀ e ∈ (pendingEntries t.size K).reverse, t.size ≤ e.1 ∧ e.1 < t'.size :=
    fun e he => by
      have := pendingEntries_bounds (List.mem_reverse.mp he)
      rw [hpl.size_eq]
      exact this
  refine ⟨hpl.wf, ⟨done ++ K, ?_, ?_⟩, ?_, ?_, ?_, ?_, ?_, ?_⟩
  case refine_1 => rw [hnum, pendingOf_take t.size p K S, List.append_assoc]
  case refine_2 =>
    rw [hpl.size_eq, List.range_add, List.map_append, ← List.range'_eq_map_range, hpl.data_new,
      List.map_append, ← hmap]
    congr 1
    exact List.map_congr_left fun i hi => hpl.data_old i (List.mem_range.mp hi)
  case refine_3 =>
    intro e he
    rcases List.mem_append.mp he with he | he
    · obtain ⟨hlo, hhi⟩ := hkeys e he
      refine ⟨hhi, ?_⟩
      rw [hpl.children_eq, if_neg (by omega), children_of_size_le hlo]
    · obtain ⟨hlt, hne, hch⟩ := hSfresh e he
      refine ⟨by rw [hpl.size_eq]; omega, ?_⟩
      rw [hpl.children_eq, if_neg hne, hch]
  case refine_4 =>
    rw [List.map_append, List.nodup_append]
    refine ⟨?_, hnodup.2, fun a ha b hb => ?_⟩
    · rw [List.map_reverse, List.nodup_reverse]
      exact (pendingEntries_keys_sorted t.size K).imp Nat.ne_of_lt
    · obtain ⟨e, he, rfl⟩ := List.mem_map.mp ha
      obtain ⟨e', he', rfl⟩ := List.mem_map.mp hb
      have := (hkeys e he).1
      have := (hSfresh e' he').1
      omega
  case refine_5 =>
    have hnew : t'.GrowsAll ((pendingEntries t.size K).reverse ++ S)
        (List.range' t.size K.length) K := by
      refine growsAll_new hpl.data_new (fun i h _ => ?_) (fun e he => ?_) (fun e he h h' => ?_)
      · rw [hpl.children_eq, if_neg (by omega), children_of_size_le h]
      · exact List.mem_append_left _ (List.mem_reverse.mpr he)
      · rcases List.mem_append.mp he with he | he
        · exact List.mem_reverse.mp he
        · have := (hSfresh e he).1
          omega
    exact Grows.take hpl hnew (fun e he => (hkeys e he).1)
      (fun K' hK' => hnodup.1 (List.mem_map.mpr ⟨(p, K'), hK', rfl⟩)) hL.grows
  case refine_6 =>
    intro c q hc
    rcases Nat.lt_or_ge c t.size with hlt | hge
    · rw [hpl.parent_old c hlt] at hc
      exact hL.parent_lt hc
    · rw [hpl.parent_new c hge (lt_size_of_parent hc)] at hc
      cases hc
      omega
  case refine_7 =>
    intro i hi h0
    rcases Nat.lt_or_ge i t.size with hlt | hge
    · rw [hpl.parent_old i hlt]
      exact hL.attached i hlt h0
    · rw [hpl.parent_new i hge hi]
      simp
  case refine_8 =>
    intro q
    rw [hpl.children_eq]
    split
    · subst q
      exact ⟨t.size, by rw [hpch, List.nil_append, List.length_range']⟩
    · exact hL.consecutive q

theorem grow_take {fuel : Nat} {t t' : Tree} {p : Nat} {K : List Description}
    {S P : List (Nat × List Description)} (hf : K.foldlM (grow.place p) (t, []) = .ok (t', P)) :
    grow (fuel + 1) t ((p, K) :: S) = grow fuel t' (P ++ S) := by
  rw [grow, hf]
  rfl

theorem eq_nil_of_loadMeasure {S : List (Nat × List Description)} (h : loadMeasure S ≤ 0) :
    S = [] := by
  rw [loadMeasure] at h
  exact List.eq_nil_of_length_eq_zero (by omega)

theorem grow_result : ∀ (fuel : Nat) (t : Tree) (S : List (Nat × List Description)),
    loadMeasure S ≤ fuel →
    (∃ e, Description.firstError (pendingOf S) = some e ∧ grow fuel t S = .error e) ∨
    (Description.firstError (pendingOf S) = none ∧ ∃ t', grow fuel t S = .ok t')
  | 0, t, S, hM => by
    obtain rfl := eq_nil_of_loadMeasure hM
    exact Or.inr ⟨rfl, t, by rw [grow]⟩
  | fuel + 1, t, [], _ => Or.inr ⟨rfl, t, by rw [grow]⟩
  | fuel + 1, t, (p, K) :: S, hM => by
    rcases place_result p K t [] with ⟨e, he, hf⟩ | ⟨he, t₁, hf⟩
    · refine Or.inl ⟨e, ?_, ?_⟩
      · rw [pendingOf_cons, List.append_assoc, Description.firstError_append, he]
        rfl
      · rw [grow, hf]
        rfl
    · rw [List.append_nil] at hf
      rw [grow_take hf, pendingOf_take t.size p K S, Description.firstError_append, he]
      exact grow_result fuel t₁ _ (by have := loadMeasure_take t.size p K S; omega)

/-- A whole run of loading keeps the invariant. -/
theorem Loading.grow {d : Description} (hsorted : ∀ D ∈ d.numbering, D.PropertiesSorted) :
    ∀ {fuel : Nat} {t t' : Tree} {S : List (Nat × List Description)},
      Loading d t S → loadMeasure S ≤ fuel → Tree.grow fuel t S = .ok t' → Loading d t' []
  | 0, t, t', S, hL, hM, hg => by
    obtain rfl := eq_nil_of_loadMeasure hM
    rw [Tree.grow] at hg
    cases hg
    exact hL
  | fuel + 1, t, t', [], hL, _, hg => by
    rw [Tree.grow] at hg
    cases hg
    exact hL
  | fuel + 1, t, t', (p, K) :: S, hL, hM, hg => by
    rcases place_result p K t [] with ⟨e, -, hf⟩ | ⟨-, t₁, hf⟩
    · rw [Tree.grow, hf] at hg
      cases hg
    · rw [List.append_nil] at hf
      rw [grow_take hf] at hg
      exact Loading.grow hsorted (hL.take hsorted hf)
        (by have := loadMeasure_take t.size p K S; omega) hg

theorem Loading.loadedFrom {d : Description} {t : Tree} (hL : Loading d t []) : t.LoadedFrom d := by
  obtain ⟨done, hnum, hmap⟩ := hL.numbered
  rw [pendingOf, List.flatMap_nil, List.append_nil] at hnum
  subst hnum
  have hsize : t.size = d.count := by
    have := congrArg List.length hmap
    simp only [List.length_map, List.length_range] at this
    rw [this, Description.length_numbering]
  refine ⟨hL.grows.shows, hmap, hsize, fun i hi => ?_, hL.consecutive, hL.parent_lt⟩
  -- the top above `i` has no parent, so it is the root
  obtain ⟨top, htop, h⟩ := hL.wf.exists_top i
  have hts : top < t.size := by
    rcases h with rfl | h
    · exact hi
    · exact hL.wf.lt_size_of_isAncestor h
  have h0 : top = 0 := Decidable.byContradiction fun hne => hL.attached top hts hne htop
  subst h0
  rcases h with rfl | h
  · exact Or.inl rfl
  · exact Or.inr h

theorem ofDescription_result {d : Description} (hsorted : ∀ D ∈ d.numbering, D.PropertiesSorted) :
    (∃ e, Description.firstError d.numbering = some e ∧ ofDescription d = .error e) ∨
    (Description.firstError d.numbering = none ∧
      ∃ t, ofDescription d = .ok t ∧ t.LoadedFrom d) := by
  cases hd : d.firstInvalid with
  | some name =>
    refine Or.inl ⟨_, Description.firstError_cons_of_firstInvalid hd _, ?_⟩
    rw [ofDescription, Description.toData_eq, hd]
    rfl
  | none =>
    have hof : ofDescription d = grow d.count (Tree.new d.data) [(0, d.children)] := by
      rw [ofDescription, Description.toData_of_sorted (hsorted d List.mem_cons_self) hd]
      rfl
    have hpend : pendingOf [(0, d.children)] = d.descendants := by
      simp [pendingOf, Description.descendants_eq]
    have hM : loadMeasure [(0, d.children)] ≤ d.count := by
      rw [loadMeasure, hpend, ← Description.length_descendants, List.length_singleton]
    rw [Description.numbering, Description.firstError_cons_of_valid hd, hof, ← hpend]
    rcases grow_result d.count (Tree.new d.data) _ hM with ⟨e, he, hg⟩ | ⟨he, t, hg⟩
    · exact Or.inl ⟨e, he, hg⟩
    · exact Or.inr ⟨he, t, hg, ((loading_start d).grow hsorted hM hg).loadedFrom⟩

/-- Loading a JSON text that reads as the description `d`. Every node of `d` has its properties
in ascending name order. Loading succeeds exactly when `d` is valid, and then builds a tree
loaded from `d`; otherwise its error names the first node of the numbering with a property
value that is not a string, number or boolean, and the first such property by name. -/
theorem load_description (text : String) (d : Description)
    (hd : (Json.Value.read? text).bind (Description.ofValue 128) = some d) :
    (∀ D ∈ d.numbering, D.PropertiesSorted) ∧
    ((∃ t, Tree.load text = .ok t) ↔ d.Valid) ∧
    (∀ t, Tree.load text = .ok t → t.LoadedFrom d) ∧
    (∀ e, Tree.load text = .error e ↔ Description.firstError d.numbering = some e) := by
  obtain ⟨v, hv, hvd⟩ := Option.bind_eq_some_iff.mp hd
  have hload : Tree.load text = ofDescription d := by
    rw [Tree.load, hv]
    simp only
    rw [Tree.ofValue, hvd]
  have hsorted := Description.ofValue_sorted hvd
  rw [hload, Description.valid_iff, ← Description.firstError_eq_none_iff]
  refine ⟨hsorted, ?_⟩
  rcases ofDescription_result hsorted with ⟨e, he, hof⟩ | ⟨he, t, hof, ht⟩
  · rw [hof, he]
    refine ⟨⟨?_, ?_⟩, ?_, fun e' => ?_⟩
    · rintro ⟨_, h⟩
      cases h
    · intro h
      cases h
    · intro _ h
      cases h
    · simp only [Except.error.injEq, Option.some.injEq]
  · rw [hof, he]
    refine ⟨⟨fun _ => rfl, fun _ => ⟨t, rfl⟩⟩, fun t' h => ?_, fun e => ?_⟩
    · cases h
      exact ht
    · simp

theorem load_description_two_nodes :
    ∃ t, Tree.load
        "\x7b\"type\":\"A\",\"properties\":\x7b\"n\":1\x7d,\"children\":[\x7b\"type\":\"B\"\x7d]\x7d" =
      .ok t ∧ t.LoadedFrom ⟨"A", "", [], [("n", .number (.unsigned 1))], [⟨"B", "", [], [], []⟩]⟩ := by
  have hread : Json.Value.read?
      "\x7b\"type\":\"A\",\"properties\":\x7b\"n\":1\x7d,\"children\":[\x7b\"type\":\"B\"\x7d]\x7d" =
      some (.object [("type", .string "A"), ("properties", .object [("n", .number (.unsigned 1))]),
        ("children", .array [.object [("type", .string "B")]])]) := by
    cbv
  have h := load_description
    "\x7b\"type\":\"A\",\"properties\":\x7b\"n\":1\x7d,\"children\":[\x7b\"type\":\"B\"\x7d]\x7d"
    ⟨"A", "", [], [("n", .number (.unsigned 1))], [⟨"B", "", [], [], []⟩]⟩
    (Option.bind_eq_some_iff.mpr ⟨_, hread, rfl⟩)
  obtain ⟨t, ht⟩ := h.2.1.mpr (by simp [Description.Valid, Description.AllValid, Json.Value.isScalar])
  exact ⟨t, ht, h.2.2.1 t ht⟩

end Tree

end TreeQuery

import GraphDoc.Proofs.FragmentArgument.Copying
import GraphDoc.Proofs.Store.Growth

/-!
# Values in place of variables

In terms of values a substitution is `Value.substitute`, at every depth and all at once. What a
variable is replaced by is a copy, which reads like the value that was copied. `Store.Inside` says
which values are inside the field arguments of a document.
-/

set_option autoImplicit false

namespace GraphDoc

open Table

/-- A search with as many levels as there are candidates left finds all that can be reached. -/
theorem closeFrom_closed {α : Type} [DecidableEq α] {next : α → List α} (candidates : List α)
    (hnext : ∀ a, ∀ b ∈ next a, b ∈ candidates) (levels : Nat) (level seen : List α)
    (hseen : ∀ a ∈ seen, a ∉ level → ∀ b ∈ next a, b ∈ seen)
    (hcount : candidates.countP (fun a => decide (a ∉ seen)) ≤ levels) :
    ∀ a ∈ closeFrom next levels level seen, ∀ b ∈ next a,
      b ∈ closeFrom next levels level seen := by
  induction levels generalizing level seen with
  | zero =>
    intro a _ b hb
    by_contra hnot
    have hpos : 0 < candidates.countP fun a => decide (a ∉ seen) :=
      List.countP_pos_iff.mpr ⟨b, hnext a b hb, decide_eq_true hnot⟩
    omega
  | succ levels ih =>
    rw [closeFrom]
    split
    · -- Nothing new follows from the level.
      next hnone =>
      intro a ha b hb
      by_cases hlevel : a ∈ level
      · by_contra hnot
        have : b ∈ unseen next level seen := mem_unseen_iff.mpr ⟨⟨a, hlevel, hb⟩, hnot⟩
        rw [List.isEmpty_iff.mp hnone] at this
        cases this
      · exact hseen a ha hlevel b hb
    · next hsome =>
      refine ih _ _ (fun a ha hfresh b hb => ?_) ?_
      · have ha : a ∈ seen := (List.mem_append.mp ha).resolve_right hfresh
        by_cases hin : b ∈ seen
        · exact List.mem_append_left _ hin
        · by_cases hlevel : a ∈ level
          · exact List.mem_append_right _ (mem_unseen_iff.mpr ⟨⟨a, hlevel, hb⟩, hin⟩)
          · exact absurd (hseen a ha hlevel b hb) hin
      · obtain ⟨a, ha⟩ := List.exists_mem_of_ne_nil _ fun h => hsome (List.isEmpty_iff.mpr h)
        obtain ⟨⟨b, hb, hab⟩, hnew⟩ := mem_unseen_iff.mp ha
        have hlt : candidates.countP (fun c => decide (c ∉ seen ++ unseen next level seen)) <
            candidates.countP fun c => decide (c ∉ seen) := by
          refine countP_lt_countP (fun c _ hc => ?_) (hnext b a hab) ?_ (decide_eq_true hnew)
          · have hc := of_decide_eq_true hc
            exact decide_eq_true fun hin => hc (List.mem_append_left _ hin)
          · exact decide_eq_false fun hn => hn (List.mem_append_right _ ha)
        omega

theorem mem_distinctBy {α β : Type} [DecidableEq β] {key : α → β} {l : List α} {a : α}
    (h : a ∈ distinctBy key l) : a ∈ l := by
  induction l with
  | nil => cases h
  | cons b l ih =>
    rcases List.mem_cons.mp h with rfl | h
    · exact List.mem_cons_self
    · exact List.mem_cons_of_mem _ (ih (List.mem_filter.mp h).1)

theorem exists_mem_distinctBy {α β : Type} [DecidableEq β] (key : α → β) {l : List α} {a : α}
    (h : a ∈ l) : ∃ b ∈ distinctBy key l, key b = key a := by
  induction l with
  | nil => cases h
  | cons c l ih =>
    by_cases hk : key a = key c
    · exact ⟨c, List.mem_cons_self, hk.symm⟩
    · rcases List.mem_cons.mp h with rfl | h
      · exact absurd rfl hk
      · obtain ⟨b, hb, he⟩ := ih h
        refine ⟨b, List.mem_cons_of_mem _ (List.mem_filter.mpr ⟨hb, ?_⟩), he⟩
        exact decide_eq_true fun hbc => hk (he.symm.trans hbc)

theorem distinctBy_pairwise {α β : Type} [DecidableEq β] (key : α → β) (l : List α) :
    (distinctBy key l).Pairwise fun a b => key a ≠ key b := by
  induction l with
  | nil => exact .nil
  | cons a l ih =>
    refine List.pairwise_cons.mpr ⟨fun b hb => ?_, ih.filter _⟩
    exact Ne.symm (of_decide_eq_true (List.mem_filter.mp hb).2)

mutual

/-- The value with its variables replaced, all at once. -/
def Value.substitute (σ : String → Option Value) : Value → Value
  | .node kind raw children =>
    if kind = .var then (σ raw).getD (.node kind raw children)
    else .node kind raw (Value.substituteAll σ children)

def Value.substituteAll (σ : String → Option Value) :
    List (Option String × Value) → List (Option String × Value)
  | [] => []
  | (name?, v) :: rest => (name?, v.substitute σ) :: Value.substituteAll σ rest

end

theorem Value.substituteAll_eq_map (σ : String → Option Value)
    (children : List (Option String × Value)) :
    Value.substituteAll σ children = children.map fun c => (c.1, c.2.substitute σ) := by
  induction children with
  | nil => rw [Value.substituteAll, List.map_nil]
  | cons c rest ih => rw [Value.substituteAll, ih, List.map_cons]

namespace Store

variable {s t t' b : Store} {G : Int → Prop} {document : Int}

/-! ## Copies in place of variables -/

/-- One child of `source` is copied below `copy`, with all that it contains. -/
def copyChild (document : Int) (depth : Nat) (copy : Int) (s : Store) (link : Int × ValueLink) :
    Store :=
  match s.values.get? link.2.value with
  | none => s
  | some row => copyValuesBelow document depth link.2.value s.values.nextId
      ((s.addValueRow { row with document? := some document }).1.addValueLink
        { link.2 with parent := copy, value := s.values.nextId }).1

theorem copyValuesBelow_succ (depth : Nat) (source copy : Int) (s : Store) :
    copyValuesBelow document (depth + 1) source copy s =
      (s.linksOf source).foldl (copyChild document depth copy) s := by
  rw [copyValuesBelow]
  rfl

/-- `s'` has copies of some children below `copy`, after those that stand there in `s`. -/
structure CopiedBelow (G : Int → Prop) (s : Store) (copy : Int)
    (children : List (Option String × Value)) (s' : Store) : Prop where
  sound : s'.Sound G
  adds : AddsValues (fun n => n = copy ∨ (s.values.issued : Int) < n) s s'
  reads : (s'.linksOf copy).map (fun l => (l.2.name?, s'.read l.2.value)) =
    (s.linksOf copy).map (fun l => (l.2.name?, s.read l.2.value)) ++ children

theorem CopiedBelow.trans {copy : Int} {cs cs' : List (Option String × Value)}
    (h : CopiedBelow G s copy cs t) (h' : CopiedBelow G t copy cs' t') :
    CopiedBelow G s copy (cs ++ cs') t' := by
  refine ⟨h'.sound, h.adds.trans h'.adds fun n hn => ?_, ?_⟩
  · have := h.adds.values.issued_le
    omega
  · rw [h'.reads, h.reads, List.append_assoc]

theorem CopiedBelow.child (hs : s.Sound G) {copy : Int} {crow : ValueRow}
    (hcopy : s.values.get? copy = some crow) (hdoc : crow.document? = some document)
    (hd : s.documents.contains document) (row : ValueRow) {link : ValueLink}
    (hf : Fits crow.kind link.name?) {s₂ : Store}
    (hs₂ : s₂ = ((s.addValueRow { row with document? := some document }).1.addValueLink
      { link with parent := copy, value := s.values.nextId }).1) :
    s₂.Sound G ∧ AddsValues (fun n => n = copy ∨ (s.values.issued : Int) < n) s s₂ ∧
    s₂.values.get? s.values.nextId = some { row with document? := some document } ∧
    ∀ children t, CopiedBelow G s₂ s.values.nextId children t →
      CopiedBelow G s copy [(link.name?, .node row.kind row.raw children)] t := by
  have hle := le_issued hcopy
  have hroot := s.values.issued_lt_nextId
  generalize hs₁ : (s.addValueRow { row with document? := some document }).1 = s₁ at hs₂
  have sound₁ : s₁.Sound G := hs₁ ▸ hs.addValueRow fun d he => by
    cases he
    exact hd
  have hrow₁ : s₁.values.get? s.values.nextId = some { row with document? := some document } :=
    hs₁ ▸ get?_push_nextId ..
  have hcopy₁ : s₁.values.get? copy = some crow := hs₁ ▸ get?_push_of_get? hcopy
  have free : s₁.Unowned s.values.nextId := hs₁ ▸
    fun o ho => hs.closed.unowned_nextId o (by cases o <;> exact ho)
  have hlinks₁ : ∀ n, s₁.linksOf n = s.linksOf n := fun n => hs₁ ▸ rfl
  have sound₂ : s₂.Sound G := by
    rw [hs₂]
    refine sound₁.addValueLink hcopy₁ (contains_of_get? hrow₁) free (by simp only; omega) hf ?_
    rw [hdoc, documentOf, hrow₁]
    rfl
  have adds₂ : AddsValues (fun n => n = copy ∨ (s.values.issued : Int) < n) s s₂ := by
    rw [hs₂, ← hs₁]
    exact (AddsValues.addValueRow _ s _).addValueLink (.inl rfl) hroot
  have hrow₂ : s₂.values.get? s.values.nextId = some { row with document? := some document } :=
    hs₂ ▸ hrow₁
  refine ⟨sound₂, adds₂, hrow₂, fun children t ht => ?_⟩
  have hissued := adds₂.values.issued_le
  have adds := adds₂.trans ht.adds (Q := fun n => n = copy ∨ (s.values.issued : Int) < n)
    fun n hn => by omega
  refine ⟨ht.sound, adds, ?_⟩
  have hlinks : (t.linksOf copy).map (·.2) = (s.linksOf copy).map (·.2) ++
      [{ link with parent := copy, value := s.values.nextId }] := by
    rw [ht.adds.linksOf (by omega), hs₂, linksOf_addValueLink, if_pos rfl, hlinks₁]
    simp
  have hnone : s₂.linksOf s.values.nextId = [] := by
    rw [hs₂, linksOf_addValueLink, if_neg (by simp only; omega), List.append_nil, hlinks₁]
    exact hs.linksOf_eq_nil fun hc => by
      have := le_issued_of_contains hc
      omega
  have hread : t.read s.values.nextId = .node row.kind row.raw children := by
    have hget := (ht.adds.get? (contains_of_get? hrow₂)).trans hrow₂
    rw [ht.sound.read_eq hget, ht.reads, hnone]
    rfl
  have view := congrArg (List.map fun l => (l.name?, t.read l.value)) hlinks
  simp only [List.map_append, List.map_map, List.map_singleton, hread, Function.comp_def] at view
  rw [view]
  congr 1
  refine List.map_congr_left fun l hl => ?_
  -- Numbers grow towards the children, so no value beyond the parent contains it.
  rw [adds.read_of_closed hs ht.sound (P := fun n => copy < n ∧ s.values.contains n = true) ?_
    ⟨hs.lt_child hl, hs.contains_child hl⟩]
  rintro n ⟨hn, hc⟩
  have := le_issued_of_contains hc
  refine ⟨by omega, hc, fun l hl => ?_⟩
  have := hs.lt_child hl
  exact ⟨by omega, hs.contains_child hl⟩

theorem copyValuesBelow_spec (hb : b.Sound G) {depth : Nat} {source : Int} {row : ValueRow}
    (hrow : b.values.get? source = some row) (hdepth : b.rowsFrom source < depth) {s : Store}
    (hs : s.Sound G) (hbs : AddsValues (fun n => (b.values.issued : Int) < n) b s)
    (hd : s.documents.contains document) {copy : Int} {crow : ValueRow}
    (hcopy : s.values.get? copy = some crow) (hnew : (b.values.issued : Int) < copy)
    (hkind : crow.kind = row.kind) (hdoc : crow.document? = some document) :
    CopiedBelow G s copy ((b.linksOf source).map fun l => (l.2.name?, b.read l.2.value))
      (copyValuesBelow document depth source copy s) := by
  induction depth generalizing source row s copy crow with
  | zero => omega
  | succ depth ih =>
    have hsource : s.linksOf source = b.linksOf source := by
      have := le_issued hrow
      exact hbs.linksOf (by omega)
    rw [copyValuesBelow_succ, hsource]
    refine foldl_snoc_induction (f := copyChild document depth copy) (b := s) (P := fun pre t =>
      CopiedBelow G s copy (pre.map fun l => (l.2.name?, b.read l.2.value)) t) _
      ⟨hs, .refl _ _, by simp⟩ ?_
    intro pre l post hsplit t ht
    rw [List.map_append, List.map_singleton]
    refine ht.trans ?_
    have hl : l ∈ b.linksOf source := by
      rw [hsplit]
      exact List.mem_append_right _ List.mem_cons_self
    obtain ⟨r, hr⟩ := contains_iff.mp (hb.contains_child hl)
    have hbt := hbs.trans ht.adds (Q := fun n => (b.values.issued : Int) < n) fun n hn => by
      have := hbs.values.issued_le
      omega
    have hget : t.values.get? l.2.value = some r := (hbt.get? (contains_of_get? hr)).trans hr
    have hcopy' : t.values.get? copy = some crow :=
      (ht.adds.get? (contains_of_get? hcopy)).trans hcopy
    have hd' : t.documents.contains document := by
      rw [ht.adds.rest]
      exact hd
    have hf : Fits crow.kind l.2.name? :=
      hkind ▸ hb.shaped l.2 (mem_rows_of_mem_linksOf hl) row ((mem_linksOf.mp hl).2 ▸ hrow)
    obtain ⟨sound₂, adds₂, hrow₂, below⟩ := CopiedBelow.child ht.sound hcopy' hdoc hd' r hf rfl
    rw [copyChild, hget, hb.read_eq hr]
    refine below _ _ (ih hr ?_ sound₂ (hbt.trans adds₂ fun n hn => ?_) ?_ hrow₂ ?_ rfl rfl)
    · have := rowsFrom_lt_of_lt hrow (hb.lt_child hl)
      omega
    · have := hbt.values.issued_le
      omega
    · rw [adds₂.rest]
      exact hd'
    · have := hbt.values.issued_le
      have := t.values.issued_lt_nextId
      omega

theorem Sound.copyInPlaceOf (hs : s.Sound G) {value replaced : Int}
    (hv : s.values.contains value) (hr : s.values.contains replaced)
    (hd : s.documents.contains document) :
    ∃ t root, s.copyInPlaceOf value replaced document = .ok (t, root) ∧
      Added G s t (some document) root (s.read value) := by
  obtain ⟨v, hv⟩ := contains_iff.mp hv
  obtain ⟨r, hr⟩ := contains_iff.mp hr
  let row : ValueRow := { r with kind := v.kind, raw := v.raw, document? := some document }
  have hroot := s.values.issued_lt_nextId
  have sound₁ : (s.addValueRow row).1.Sound G := hs.addValueRow fun d he => by
    cases he
    exact hd
  have hrow : (s.addValueRow row).1.values.get? s.values.nextId = some row :=
    get?_push_nextId ..
  have hle : (s.addValueRow row).1.values.size + 1 > s.rowsFrom value := by
    have := s.rowsFrom_le_size value
    have := (AddsValues.addValueRow (fun _ => True) s row).values.size_le
    omega
  have below := copyValuesBelow_spec hs hv hle sound₁ (.addValueRow _ s row) hd hrow hroot rfl rfl
  refine ⟨copyValuesBelow document ((s.addValueRow row).1.values.size + 1) value s.values.nextId
    (s.addValueRow row).1, s.values.nextId, ?_, ?_⟩
  · rw [Store.copyInPlaceOf, hv, hr]
    rfl
  have hissued : ((s.addValueRow row).1.values.issued : Int) = s.values.issued + 1 := by
    simp [Store.addValueRow]
  have hnone : (s.addValueRow row).1.linksOf s.values.nextId = [] :=
    hs.linksOf_eq_nil fun hc => by
      have := le_issued_of_contains hc
      omega
  refine ⟨?_, below.sound, rfl, ?_, ?_, ?_, ?_⟩
  · exact (AddsValues.addValueRow _ s row).trans below.adds fun n hn => by omega
  · exact below.adds.values.contains (contains_of_get? hrow)
  · refine below.adds.unowned (le_issued hrow) ?_
    exact fun o ho => hs.closed.unowned_nextId o (by cases o <;> exact ho)
  · exact (below.adds.documentOf (contains_of_get? hrow)).trans (by simp [row])
  · rw [below.sound.read_eq ((below.adds.get? (contains_of_get? hrow)).trans hrow),
      below.reads, hnone, hs.read_eq hv]
    rfl

/-! ## What is inside the field arguments of a document -/

theorem mem_argumentsIn {a : Int × FieldArgument} : a ∈ s.argumentsIn document ↔
    s.fieldArguments.get? a.1 = some a.2 ∧
      ∃ p ∈ s.placements.rows, p.document = document ∧ p.child = a.2.selection := by
  have mem : ∀ b : Int × FieldArgument, b ∈ (s.placements.rows.filter (·.document = document)).flatMap
      (fun p => s.argumentRows p.child) ↔ s.fieldArguments.get? b.1 = some b.2 ∧
        ∃ p ∈ s.placements.rows, p.document = document ∧ p.child = b.2.selection := by
    intro b
    simp only [List.mem_flatMap, List.mem_filter, decide_eq_true_eq, argumentRows,
      get?_eq_some_iff]
    constructor
    · rintro ⟨p, ⟨hp, hd⟩, hb, hx⟩
      exact ⟨hb, p, hp, hd, hx.symm⟩
    · rintro ⟨hb, p, hp, hd, hx⟩
      exact ⟨p, ⟨hp, hd⟩, hb, hx.symm⟩
  constructor
  · exact fun h => (mem a).mp (mem_distinctBy h)
  · intro h
    obtain ⟨b, hb, he⟩ := exists_mem_distinctBy (fun a => a.1) ((mem a).mpr h)
    have hrow := ((mem b).mp (mem_distinctBy hb)).1
    rw [he, h.1] at hrow
    have hab : b = a := Prod.ext he (Option.some.inj hrow).symm
    exact hab ▸ hb

/-- The values inside the field arguments of a document. -/
def Inside (s : Store) (document v : Int) : Prop :=
  v ∈ s.contents ((s.argumentsIn document).map (·.2.value))

theorem Inside.argument {a : Int × FieldArgument} (h : a ∈ s.argumentsIn document) :
    s.Inside document a.2.value :=
  mem_closure_of_start _ _ (List.mem_map_of_mem (f := fun a => a.2.value) h)

theorem Inside.child {v : Int} (h : s.Inside document v) {l : Int × ValueLink}
    (hl : l ∈ s.linksOf v) : s.Inside document l.2.value := by
  refine closeFrom_closed (s.valueLinks.rows.map (·.value)) (fun a b hb => ?_) _ _ _ ?_ ?_ v h _
    (List.mem_map_of_mem (f := fun l => l.2.value) hl)
  · obtain ⟨l, hl, rfl⟩ := List.mem_map.mp hb
    exact List.mem_map_of_mem (mem_rows_of_mem_linksOf hl)
  · exact fun a ha hn => absurd ha hn
  · have hle := List.countP_le_length (l := s.valueLinks.rows.map (·.value))
      (p := fun a => decide (a ∉ distinct ((s.argumentsIn document).map (·.2.value))))
    rw [rows, List.map_map, List.length_map] at hle
    rw [rows, List.map_map]
    exact hle

/-- What is inside is an argument or a child of what is inside. -/
theorem Inside.owner {v : Int} (h : s.Inside document v) :
    (∃ a ∈ s.argumentsIn document, a.2.value = v) ∨
      ∃ p, s.Inside document p ∧ ∃ l ∈ s.linksOf p, l.2.value = v := by
  have found : v ∈ closure (fun id => (s.linksOf id).map fun l => l.2.value) s.valueLinks.size
    ((s.argumentsIn document).map fun a => a.2.value) := h
  have key := closure_induction (P := fun v => s.Inside document v ∧
      ((∃ a ∈ s.argumentsIn document, a.2.value = v) ∨
        ∃ p, s.Inside document p ∧ ∃ l ∈ s.linksOf p, l.2.value = v)) ?_ ?_ v found
  · exact key.2
  · intro v hv
    obtain ⟨a, ha, rfl⟩ := List.mem_map.mp hv
    exact ⟨.argument ha, .inl ⟨a, ha, rfl⟩⟩
  · rintro p v ⟨hp, _⟩ hv
    obtain ⟨l, hl, rfl⟩ := List.mem_map.mp hv
    exact ⟨hp.child hl, .inr ⟨p, hp, l, hl, rfl⟩⟩

theorem Inside.of_child (hs : s.Sound G) {v : Int} {l : Int × ValueLink} (hl : l ∈ s.linksOf v)
    (h : s.Inside document l.2.value) : s.Inside document v := by
  have mine := owns_of_mem_linksOf hl
  rcases h.owner with ⟨a, ha, he⟩ | ⟨p, hp, l', hl', he⟩
  · have : s.owns (.argument a.1) = some l.2.value :=
      Option.map_eq_some_iff.mpr ⟨a.2, (mem_argumentsIn.mp ha).1, he⟩
    cases hs.single _ _ _ mine this
  · have same := hs.single _ _ _ mine (he ▸ owns_of_mem_linksOf hl')
    have hid : l.1 = l'.1 := Owner.child.inj same
    have hrow := (mem_linksOf.mp hl).1
    rw [hid, (mem_linksOf.mp hl').1] at hrow
    have hparent := (mem_linksOf.mp hl).2
    rw [← Option.some.inj hrow, (mem_linksOf.mp hl').2] at hparent
    exact hparent ▸ hp

theorem Inside.documentOf (hs : s.Sound G) (hG : ¬ G document) {v : Int}
    (h : s.Inside document v) : s.documentOf v = some document := by
  have found : v ∈ closure (fun id => (s.linksOf id).map fun l => l.2.value) s.valueLinks.size
    ((s.argumentsIn document).map fun a => a.2.value) := h
  refine closure_induction (P := fun v => s.documentOf v = some document) ?_ ?_ v found
  · intro v hv
    obtain ⟨a, ha, rfl⟩ := List.mem_map.mp hv
    obtain ⟨hget, p, hp, hd, hx⟩ := mem_argumentsIn.mp ha
    exact hd ▸ hs.arguments a.2 (mem_rows_of_get? hget) p hp hx (hd ▸ hG)
  · intro p v hp hv
    obtain ⟨l, hl, rfl⟩ := List.mem_map.mp hv
    rw [hs.together _ (mem_rows_of_mem_linksOf hl), (mem_linksOf.mp hl).2, hp]

end Store

end GraphDoc

import GraphDoc.Proofs.FragmentArgument.Replacing

/-!
# Substitution

`Store.substitute` replaces the variables in the field arguments of a document, which is
`Value.substitute` on their values. Everything that is not inside a field argument of the document
reads as before.
-/

set_option autoImplicit false

namespace GraphDoc

open Table

namespace Store

variable {s t t' b : Store} {G : Int → Prop} {document : Int}

/-! ## Sweeps -/

/-- Lets an owner refer to another value. -/
def repoint (s : Store) : Owner → Int → Store
  | .child id, v => s.setLink id v
  | .argument id, v => s.setArgument id v
  | _, _ => s

theorem linksOf_repoint (s : Store) (o : Owner) (c p : Int) : (s.repoint o c).linksOf p =
    (s.linksOf p).map fun l =>
      (l.1, { l.2 with value := if o = .child l.1 then c else l.2.value }) := by
  cases o with
  | child id =>
    have h := s.valueLinks.filter_entries_modify id (fun l => { l with value := c })
      (fun l => decide (l.parent = p)) fun _ => rfl
    refine h.trans (List.map_congr_left fun l _ => ?_)
    by_cases hl : l.1 = id
    · subst hl
      simp
    · simp [hl, Ne.symm hl]
  | _ => simp [repoint, linksOf, setArgument]

theorem argumentRows_repoint (s : Store) (o : Owner) (c x : Int) : (s.repoint o c).argumentRows x =
    (s.argumentRows x).map fun a =>
      (a.1, { a.2 with value := if o = .argument a.1 then c else a.2.value }) := by
  cases o with
  | argument id =>
    have h := s.fieldArguments.filter_entries_modify id (fun a => { a with value := c })
      (fun a => decide (a.selection = x)) fun _ => rfl
    refine h.trans (List.map_congr_left fun a _ => ?_)
    by_cases ha : a.1 = id
    · subst ha
      simp
    · simp [ha, Ne.symm ha]
  | _ => simp [repoint, argumentRows, setLink]

@[simp] theorem values_repoint (s : Store) (o : Owner) (c : Int) :
    (s.repoint o c).values = s.values := by
  cases o <;> rfl

theorem repoint_eraseVariable_rest (s : Store) (o : Owner) (c v : Int) :
    (s.repoint o c).eraseVariable v = { s with
      values := ((s.repoint o c).eraseVariable v).values
      valueLinks := ((s.repoint o c).eraseVariable v).valueLinks
      fieldArguments := ((s.repoint o c).eraseVariable v).fieldArguments } := by
  cases o <;> rfl

/-- In `t`, some owners of variables in `s` refer to copies of what the scope binds these to. -/
structure Swept (G : Int → Prop) (s : Store) (document : Int) (scope : Scope)
    (moved : Owner → Option Int) (t : Store) : Prop where
  sound : t.Sound G
  rest : t = { s with
    values := t.values, valueLinks := t.valueLinks, fieldArguments := t.fieldArguments }
  issued : s.values.issued ≤ t.values.issued
  values : ∀ v : Int, v ≤ s.values.issued → (∀ o, s.owns o = some v → moved o = none) →
    t.values.get? v = s.values.get? v
  links : ∀ p : Int, p ≤ s.values.issued → t.linksOf p = (s.linksOf p).map fun l =>
    (l.1, { l.2 with value := (moved (.child l.1)).getD l.2.value })
  arguments : ∀ x, t.argumentRows x = (s.argumentRows x).map fun a =>
    (a.1, { a.2 with value := (moved (.argument a.1)).getD a.2.value })
  copies : ∀ o c, moved o = some c → (s.values.issued : Int) < c ∧ t.values.contains c = true ∧
    ∃ v name value, s.owns o = some v ∧ s.Inside document v ∧ s.variableName? v = some name ∧
      NameMap.get? name scope = some value ∧ t.read c = s.read value

namespace Swept

variable {scope : Scope} {moved : Owner → Option Int}

theorem refl (hs : s.Sound G) (document : Int) (scope : Scope) :
    Swept G s document scope (fun _ => none) s :=
  ⟨hs, rfl, Nat.le_refl _, fun _ _ _ => rfl, fun _ _ => by simp, fun _ => by simp, nofun⟩

theorem read_outside (h : Swept G s document scope moved t) (hs : s.Sound G) {v : Int}
    (hv : s.values.contains v) (ho : ¬ s.Inside document v) :
    t.values.contains v ∧ t.read v = s.read v := by
  have still : ∀ o w, s.owns o = some w → ¬ s.Inside document w → moved o = none := by
    intro o w hw hout
    cases hm : moved o with
    | none => rfl
    | some c =>
      obtain ⟨_, _, v, _, _, hv, hin, _⟩ := h.copies o c hm
      cases hw.symm.trans hv
      exact absurd hin hout
  have same : ∀ w, s.values.contains w → ¬ s.Inside document w →
      t.values.get? w = s.values.get? w := fun w hw hout =>
    h.values w (le_issued_of_contains hw) fun o how => still o w how hout
  refine ⟨?_, hs.read_frame h.sound (P := fun w => s.values.contains w ∧
    ¬ s.Inside document w) ?_ ⟨hv, ho⟩⟩
  · rw [contains, same v hv ho]
    exact hv
  · rintro w ⟨hw, hout⟩
    have below : ∀ l ∈ s.linksOf w, ¬ s.Inside document l.2.value :=
      fun l hl hin => hout (.of_child hs hl hin)
    refine ⟨hw, same w hw hout, ?_, fun l hl => ⟨hs.contains_child hl, below l hl⟩⟩
    rw [h.links w (le_issued_of_contains hw)]
    refine (List.map_congr_left fun l hl => ?_).trans (List.map_id' _)
    rw [still _ _ (owns_of_mem_linksOf hl) (below l hl)]
    rfl

theorem owns_of_none (h : Swept G s document scope moved t) (hs : s.Sound G) {o : Owner} {v : Int}
    (ho : s.owns o = some v) (hm : moved o = none) : t.owns o = some v := by
  cases o with
  | child id =>
    obtain ⟨l, hl, rfl⟩ := Option.map_eq_some_iff.mp ho
    have hp := (hs.closed.valueLinks l (mem_rows_of_get? hl)).1
    have hmem : (id, l) ∈ t.linksOf l.parent := by
      rw [h.links _ (le_issued_of_contains hp)]
      refine List.mem_map.mpr ⟨(id, l), mem_linksOf.mpr ⟨hl, rfl⟩, ?_⟩
      simp only [hm, Option.getD_none]
    exact owns_of_mem_linksOf hmem
  | argument id =>
    obtain ⟨a, ha, rfl⟩ := Option.map_eq_some_iff.mp ho
    have hmem : (id, a) ∈ t.argumentRows a.selection := by
      rw [h.arguments]
      refine List.mem_map.mpr ⟨(id, a), List.mem_filter.mpr ⟨mem_of_get? ha, by simp⟩, ?_⟩
      simp only [hm, Option.getD_none]
    exact owns_argument (get?_of_mem (List.mem_filter.mp hmem).1)
  | directive site id =>
    rw [h.rest]
    cases site <;> exact ho
  | default id =>
    rw [h.rest]
    exact ho

theorem get?_parent (h : Swept G s document scope moved t) (hs : s.Sound G) {p : Int}
    {l : Int × ValueLink} (hl : l ∈ s.linksOf p) : t.values.get? p = s.values.get? p := by
  obtain ⟨hget, rfl⟩ := mem_linksOf.mp hl
  have hrows := mem_rows_of_get? hget
  have hc := (hs.closed.valueLinks _ hrows).1
  refine h.values _ (le_issued_of_contains hc) fun o ho => ?_
  cases hm : moved o with
  | none => rfl
  | some c =>
    obtain ⟨_, _, v, name, _, hv, _, hname, _⟩ := h.copies o c hm
    cases ho.symm.trans hv
    obtain ⟨row, hrow, hk⟩ := Option.bind_eq_some_iff.mp hname
    have hk : row.kind = .var := (Option.ite_none_right_eq_some.mp hk).1
    rcases hs.shaped _ hrows row hrow with ⟨hk', _⟩ | ⟨hk', _⟩ <;> cases hk.symm.trans hk'

section

variable (h : Swept G s document scope moved t) (hs : s.Sound G) (hG : ¬ G document) {o : Owner}
  {v c : Int} (ho : s.owns o = some v) (hin : s.Inside document v) (hm : moved o = none)
  {t₁ : Store} {w : Value} (added : Added G t t₁ (some document) c w)
include h hs hG ho hin hm added

theorem repoint_sound : (t₁.repoint o c).Sound G := by
  have hto := h.owns_of_none hs ho hm
  have hlt := added.issued_lt
  have hle := h.issued
  rcases hin.owner with ⟨a, ha, rfl⟩ | ⟨p, hp, l, hl, rfl⟩
  · obtain ⟨hget, _⟩ := mem_argumentsIn.mp ha
    cases hs.single o (.argument a.1) _ ho (owns_argument hget)
    refine added.sound.setArgument added.here added.free fun a' ha' p hp hx hg => ?_
    have hrow : (a.1, a.2) ∈ t.argumentRows a.2.selection := by
      rw [h.arguments]
      refine List.mem_map.mpr ⟨a, List.mem_filter.mpr ⟨mem_of_get? hget, by simp⟩, ?_⟩
      simp only [hm, Option.getD_none]
    have hget₁ : t₁.fieldArguments.get? a.1 = some a.2 := by
      rw [added.adds.rest]
      exact get?_of_mem (List.mem_filter.mp hrow).1
    cases hget₁.symm.trans ha'
    have hp : p ∈ s.placements.rows := by
      rw [added.adds.rest, h.rest] at hp
      exact hp
    rw [added.document, ← hin.documentOf hs hG]
    exact hs.arguments a.2 (mem_rows_of_get? hget) p hp hx hg
  · cases hs.single o (.child l.1) _ ho (owns_of_mem_linksOf hl)
    have hpc : p ≤ s.values.issued := by
      have := (hs.closed.valueLinks _ (mem_rows_of_mem_linksOf hl)).1
      rw [(mem_linksOf.mp hl).2] at this
      exact le_issued_of_contains this
    have hlink : (l.1, l.2) ∈ t.linksOf p := by
      rw [h.links p hpc]
      refine List.mem_map.mpr ⟨l, hl, ?_⟩
      simp only [hm, Option.getD_none]
    refine added.sound.setLink added.here added.free fun l' hl' => ?_
    cases (added.adds.links.get?_of_get? (mem_linksOf.mp hlink).1).symm.trans hl'
    have hparent := h.get?_parent hs hl
    have hdoc : t.documentOf p = some document := by
      rw [documentOf, hparent]
      exact hp.documentOf hs hG
    have hcp : t.values.contains p := by
      obtain ⟨row, hrow, _⟩ := Option.bind_eq_some_iff.mp hdoc
      exact contains_of_get? hrow
    rw [(mem_linksOf.mp hl).2, added.document, added.adds.documentOf hcp, hdoc]
    exact ⟨by omega, rfl⟩

omit hG in
theorem unowned_repoint : (t₁.repoint o c).Unowned v := by
  have hto := h.owns_of_none hs ho hm
  have hlt := added.issued_lt
  have hle := h.issued
  have hv := le_issued_of_contains (hs.closed.contains_of_owns ho)
  have owned : ∀ o', t₁.owns o' = some v → o' = o := by
    intro o' ho'
    rcases added.adds.owns ho' with ho' | ⟨_, hnew⟩
    · exact h.sound.single o' o v ho' hto
    · omega
  intro o' ho'
  have key : o' = o ∧ (t₁.owns o').map (fun _ => c) = some v ∨ o' ≠ o ∧ t₁.owns o' = some v := by
    rcases hin.owner with ⟨a, ha, rfl⟩ | ⟨p, _, l, hl, rfl⟩
    · cases hs.single o (.argument a.1) _ ho
        (owns_argument (mem_argumentsIn.mp ha).1)
      rw [repoint, owns_setArgument] at ho'
      split at ho'
      · next he => exact .inl ⟨he, ho'⟩
      · next he => exact .inr ⟨he, ho'⟩
    · cases hs.single o (.child l.1) _ ho (owns_of_mem_linksOf hl)
      rw [repoint, owns_setLink] at ho'
      split at ho'
      · next he => exact .inl ⟨he, ho'⟩
      · next he => exact .inr ⟨he, ho'⟩
  rcases key with ⟨_, hmap⟩ | ⟨hne, ho'⟩
  · obtain ⟨_, _, rfl⟩ := Option.map_eq_some_iff.mp hmap
    omega
  · exact hne (owned o' ho')

theorem read_new {n : Int} (hn : (s.values.issued : Int) < n) (hc : t₁.values.contains n) :
    ((t₁.repoint o c).eraseVariable v).values.contains n ∧
      ((t₁.repoint o c).eraseVariable v).read n = t₁.read n := by
  have sound := (h.repoint_sound hs hG ho hin hm added).eraseVariable
    (h.unowned_repoint hs ho hin hm added)
  have hv := le_issued_of_contains (hs.closed.contains_of_owns ho)
  have hget : ∀ n : Int, (s.values.issued : Int) < n →
      ((t₁.repoint o c).eraseVariable v).values.get? n = t₁.values.get? n := by
    intro n hn
    rw [get?_eraseVariable_of_ne (by omega), values_repoint]
  -- The owner that moves is no link below a new value.
  have hlinks : ∀ n : Int, (s.values.issued : Int) < n →
      ((t₁.repoint o c).eraseVariable v).linksOf n = t₁.linksOf n := by
    intro n hn
    refine (linksOf_repoint t₁ o c n).trans ((List.map_congr_left fun l hl => ?_).trans
      (List.map_id' _))
    rw [if_neg]
    rintro rfl
    obtain ⟨l₀, hl₀, _⟩ := Option.map_eq_some_iff.mp ho
    have hp := le_issued_of_contains
      (hs.closed.valueLinks l₀ (mem_rows_of_get? hl₀)).1
    have hmem : (l.1, l₀) ∈ t.linksOf l₀.parent := by
      rw [h.links _ hp]
      refine List.mem_map.mpr ⟨(l.1, l₀), mem_linksOf.mpr ⟨hl₀, rfl⟩, ?_⟩
      simp only [hm, Option.getD_none]
    have hget₁ := added.adds.links.get?_of_get? (mem_linksOf.mp hmem).1
    rw [(mem_linksOf.mp hl).1] at hget₁
    have hparent := (mem_linksOf.mp hl).2
    rw [Option.some.inj hget₁] at hparent
    change l₀.parent = n at hparent
    omega
  refine ⟨?_, added.sound.read_frame sound
    (P := fun n => (s.values.issued : Int) < n ∧ t₁.values.contains n) ?_ ⟨hn, hc⟩⟩
  · rw [contains, hget n hn]
    exact hc
  · rintro n ⟨hn, hc⟩
    refine ⟨hc, hget n hn, hlinks n hn, fun l hl => ?_⟩
    have := added.sound.lt_child hl
    exact ⟨by omega, added.sound.contains_child hl⟩

end

theorem replace (h : Swept G s document scope moved t) (hs : s.Sound G) (hG : ¬ G document)
    (hscope : ∀ name value, NameMap.get? name scope = some value →
      s.values.contains value ∧ ¬ s.Inside document value)
    {o : Owner} {v value : Int} {name : String} (ho : s.owns o = some v)
    (hin : s.Inside document v) (hname : s.variableName? v = some name)
    (hvalue : NameMap.get? name scope = some value) (hm : moved o = none) :
    ∃ t₁ c, t.copyInPlaceOf value v document = .ok (t₁, c) ∧
      Swept G s document scope (fun o' => if o' = o then some c else moved o')
        ((t₁.repoint o c).eraseVariable v) := by
  obtain ⟨hcv, hout⟩ := hscope name value hvalue
  obtain ⟨hct, hread⟩ := h.read_outside hs hcv hout
  have hc := hs.closed.contains_of_owns ho
  have hle := le_issued_of_contains hc
  have hvt : t.values.get? v = s.values.get? v := by
    refine h.values v hle fun o' ho' => ?_
    rw [hs.single o' o v ho' ho, hm]
  have hct' : t.values.contains v := by
    rw [contains, hvt]
    exact hc
  have hd : t.documents.contains document := by
    obtain ⟨row, hrow, hdoc⟩ := Option.bind_eq_some_iff.mp (hin.documentOf hs hG)
    rw [h.rest]
    exact hs.closed.values row (mem_rows_of_get? hrow) document hdoc
  obtain ⟨t₁, c, hcopy, added⟩ := h.sound.copyInPlaceOf hct hct' hd
  refine ⟨t₁, c, hcopy, ?_⟩
  have hissued := h.issued
  have hissued₁ := added.adds.values.issued_le
  have hlt := added.issued_lt
  have new := fun n hn hc => h.read_new hs hG ho hin hm added (n := n) hn hc
  refine ⟨?_, ?_, ?_, ?_, ?_, ?_, ?_⟩
  · exact (h.repoint_sound hs hG ho hin hm added).eraseVariable
      (h.unowned_repoint hs ho hin hm added)
  · have rest : ∀ values links arguments,
        ({ t₁ with values := values, valueLinks := links, fieldArguments := arguments } : Store) =
        { s with values := values, valueLinks := links, fieldArguments := arguments } := by
      intro values links arguments
      rw [added.adds.rest, h.rest]
    exact (repoint_eraseVariable_rest t₁ o c v).trans (rest ..)
  · rw [eraseVariable, values_repoint]
    exact Nat.le_trans hissued hissued₁
  · intro n hn hstill
    have hne : n ≠ v := by
      rintro rfl
      have := hstill o ho
      simp at this
    rw [get?_eraseVariable_of_ne hne, values_repoint, added.adds.values.get?_of_le (by omega)]
    refine h.values n hn fun o' ho' => ?_
    have := hstill o' ho'
    split at this
    · cases this
    · exact this
  · intro p hp
    refine (linksOf_repoint t₁ o c p).trans ?_
    rw [added.adds.linksOf (by omega), h.links p hp, List.map_map]
    refine List.map_congr_left fun l _ => ?_
    by_cases he : o = .child l.1
    · simp [he]
    · simp [he, Ne.symm he]
  · intro x
    refine (argumentRows_repoint t₁ o c x).trans ?_
    have hargs : t₁.argumentRows x = t.argumentRows x := by
      rw [added.adds.rest]
      rfl
    rw [hargs, h.arguments, List.map_map]
    refine List.map_congr_left fun a _ => ?_
    by_cases he : o = .argument a.1
    · simp [he]
    · simp [he, Ne.symm he]
  · intro o' c' hm'
    split at hm'
    · next he =>
      cases hm'
      obtain ⟨hcn, hrn⟩ := new c (by omega) added.here
      refine ⟨by omega, hcn, v, name, value, he ▸ ho, hin, hname, hvalue, ?_⟩
      rw [hrn, added.reads, hread]
    · obtain ⟨hnew, hcc, v', name', value', hrest⟩ := h.copies o' c' hm'
      obtain ⟨hcn, hrn⟩ := new c' hnew (added.adds.values.contains hcc)
      refine ⟨hnew, hcn, v', name', value', hrest.1, hrest.2.1, hrest.2.2.1, hrest.2.2.2.1, ?_⟩
      rw [hrn, added.read_old h.sound hcc, hrest.2.2.2.2]

/-- A sweep replaces each variable that it finds and that the scope binds. -/
theorem sweep (hs : s.Sound G) (hG : ¬ G document)
    (hscope : ∀ name value, NameMap.get? name scope = some value →
      s.values.contains value ∧ ¬ s.Inside document value)
    (own : Int → Owner) (hown : ∀ a b, own a = own b → a = b) (set : Store → Int → Int → Store)
    (hset : ∀ t place c, set t place c = t.repoint (own place) c)
    (found : List (Int × Int × String)) {moved : Owner → Option Int} {t : Store}
    (h : Swept G s document scope moved t)
    (hfound : ∀ f ∈ found, s.owns (own f.1) = some f.2.1 ∧ s.Inside document f.2.1 ∧
      s.variableName? f.2.1 = some f.2.2 ∧ moved (own f.1) = none)
    (distinct : found.Pairwise fun a b => a.1 ≠ b.1) :
    ∃ t' moved', found.foldlM (replaceVariable scope document set) t = .ok t' ∧
      Swept G s document scope moved' t' ∧ ∀ o, moved' o = none ↔
        moved o = none ∧ ∀ f ∈ found, own f.1 = o → NameMap.get? f.2.2 scope = none := by
  induction found generalizing moved t with
  | nil => exact ⟨t, moved, rfl, h, by simp⟩
  | cons f rest ih =>
    obtain ⟨place, v, name⟩ := f
    obtain ⟨ho, hin, hname, hm⟩ := hfound _ List.mem_cons_self
    obtain ⟨hfirst, hrest⟩ := List.pairwise_cons.mp distinct
    have hfound' := fun f hf => hfound f (List.mem_cons_of_mem _ hf)
    rw [List.foldlM_cons]
    cases hvalue : NameMap.get? name scope with
    | none =>
      obtain ⟨t', moved', hfold, h', hmoved⟩ := ih h hfound' hrest
      refine ⟨t', moved', ?_, h', fun o => ?_⟩
      · simp only [replaceVariable, hvalue]
        exact hfold
      · rw [hmoved, List.forall_mem_cons]
        simp [hvalue]
    | some value =>
      obtain ⟨t₁, c, hcopy, h₁⟩ := h.replace hs hG hscope ho hin hname hvalue hm
      have hother : ∀ f ∈ rest, own f.1 ≠ own place :=
        fun f hf he => hfirst f hf (hown _ _ he).symm
      obtain ⟨t', moved', hfold, h', hmoved⟩ := ih h₁ (fun f hf => by
        obtain ⟨ho', hin', hname', hm'⟩ := hfound' f hf
        exact ⟨ho', hin', hname', (if_neg (hother f hf)).trans hm'⟩) hrest
      refine ⟨t', moved', ?_, h', fun o => ?_⟩
      · simp only [replaceVariable, hvalue, hcopy]
        rw [← hset] at hfold
        exact hfold
      · rw [hmoved, List.forall_mem_cons]
        by_cases he : o = own place
        · simp [he, hvalue]
        · simp [he, Ne.symm he]

end Swept

/-! ## The substitution -/

theorem mem_nestedVariables {f : Int × Int × String} : f ∈ s.nestedVariables document ↔
    ∃ l, s.valueLinks.get? f.1 = some l ∧ s.Inside document l.parent ∧ l.value = f.2.1 ∧
      s.variableName? f.2.1 = some f.2.2 := by
  obtain ⟨id, v, name⟩ := f
  simp only [nestedVariables, List.mem_filterMap, Option.ite_none_right_eq_some,
    Option.map_eq_some_iff, Prod.mk.injEq, Prod.exists, get?_eq_some_iff]
  constructor
  · rintro ⟨_, l, hl, hin, _, hname, rfl, rfl, rfl⟩
    exact ⟨l, hl, hin, rfl, hname⟩
  · rintro ⟨l, hl, hin, rfl, hname⟩
    exact ⟨id, l, hl, hin, name, hname, rfl, rfl, rfl⟩

theorem mem_directVariables {f : Int × Int × String} : f ∈ s.directVariables document ↔
    ∃ a, (f.1, a) ∈ s.argumentsIn document ∧ a.value = f.2.1 ∧
      s.variableName? f.2.1 = some f.2.2 := by
  obtain ⟨id, v, name⟩ := f
  simp only [directVariables, List.mem_filterMap, Option.map_eq_some_iff, Prod.mk.injEq,
    Prod.exists]
  constructor
  · rintro ⟨_, a, ha, _, hname, rfl, rfl, rfl⟩
    exact ⟨a, ha, rfl, hname⟩
  · rintro ⟨a, ha, rfl, hname⟩
    exact ⟨id, a, ha, name, hname, rfl, rfl, rfl⟩

theorem Inside.owned {v : Int} (h : s.Inside document v) : ∃ o, s.owns o = some v := by
  rcases h.owner with ⟨a, ha, rfl⟩ | ⟨_, _, l, hl, rfl⟩
  · exact ⟨.argument a.1, owns_argument (mem_argumentsIn.mp ha).1⟩
  · exact ⟨.child l.1, owns_of_mem_linksOf hl⟩

/-- What the variables of a scope stand for. -/
def meaning (s : Store) (scope : Scope) (name : String) : Option Value :=
  (NameMap.get? name scope).map s.read

theorem Sound.read_variable (hs : s.Sound G) {v : Int} {name : String}
    (h : s.variableName? v = some name) : s.read v = .node .var name [] := by
  obtain ⟨row, hrow, hk⟩ := Option.bind_eq_some_iff.mp h
  obtain ⟨hk, hraw⟩ := Option.ite_none_right_eq_some.mp hk
  have hnone : s.linksOf v = [] := by
    refine List.eq_nil_iff_forall_not_mem.mpr fun l hl => ?_
    have hrow' := (mem_linksOf.mp hl).2 ▸ hrow
    rcases hs.shaped _ (mem_rows_of_mem_linksOf hl) row hrow' with ⟨hk', _⟩ | ⟨hk', _⟩ <;>
      cases hk.symm.trans hk'
  rw [hs.read_eq hrow, hnone, hk, Option.some.inj hraw]
  rfl

section

variable {scope : Scope} {moved : Owner → Option Int}

theorem Swept.read_moved (h : Swept G s document scope moved t) (hs : s.Sound G) {o : Owner}
    {v c : Int} (ho : s.owns o = some v) (hm : moved o = some c) :
    t.read c = (s.read v).substitute (s.meaning scope) := by
  obtain ⟨_, _, v', name, value, ho', _, hname, hvalue, hread⟩ := h.copies o c hm
  cases ho.symm.trans ho'
  rw [hs.read_variable hname, Value.substitute, if_pos rfl, meaning, hvalue, hread]
  rfl

theorem Swept.read_inside (h : Swept G s document scope moved t) (hs : s.Sound G)
    (complete : ∀ o v name, s.owns o = some v → s.Inside document v →
      s.variableName? v = some name → moved o = none → NameMap.get? name scope = none)
    {v : Int} (hin : s.Inside document v) (hm : ∀ o, s.owns o = some v → moved o = none) :
    t.read v = (s.read v).substitute (s.meaning scope) := by
  induction v using hs.descend with
  | step v ih =>
    obtain ⟨o, ho⟩ := hin.owned
    obtain ⟨row, hrow⟩ := contains_iff.mp (hs.closed.contains_of_owns ho)
    have hle := le_issued hrow
    have hrow' : t.values.get? v = some row := (h.values v hle hm).trans hrow
    by_cases hk : row.kind = .var
    · -- A variable that is still there is bound to nothing.
      have hname : s.variableName? v = some row.raw := by simp [variableName?, hrow, hk]
      have hfree := complete o v row.raw ho hin hname (hm o ho)
      have hname' : t.variableName? v = some row.raw := by simp [variableName?, hrow', hk]
      rw [hs.read_variable hname, h.sound.read_variable hname', Value.substitute, if_pos rfl,
        meaning, hfree]
      rfl
    · rw [h.sound.read_eq hrow', hs.read_eq hrow, Value.substitute, if_neg hk,
        Value.substituteAll_eq_map, h.links v hle, List.map_map, List.map_map]
      congr 1
      refine List.map_congr_left fun l hl => ?_
      have howner := owns_of_mem_linksOf hl
      simp only [Function.comp_apply, Prod.mk.injEq, true_and]
      cases hml : moved (.child l.1) with
      | some c => exact h.read_moved hs howner hml
      | none =>
        refine ih l hl (hin.child hl) fun o' ho' => ?_
        rw [hs.single o' _ _ ho' howner, hml]

end

/-- In `t`, the variables in the field arguments of a document are replaced. -/
structure Substituted (G : Int → Prop) (s : Store) (document : Int) (σ : String → Option Value)
    (t : Store) : Prop where
  sound : t.Sound G
  rest : t = { s with
    values := t.values, valueLinks := t.valueLinks, fieldArguments := t.fieldArguments }
  inner : ∀ p ∈ s.placements.rows, p.document = document →
    t.arguments p.child = (s.arguments p.child).map fun a => (a.1, a.2.substitute σ)
  outer : ∀ x, (∀ p ∈ s.placements.rows, p.document = document → p.child ≠ x) →
    t.arguments x = s.arguments x
  isOwned : ∀ x row, t.isOwned x row = s.isOwned x row
  kept : ∀ v, s.values.contains v = true → ¬ s.Inside document v →
    t.values.contains v = true ∧ t.read v = s.read v
  owns : ∀ o v, t.owns o = some v → v ≤ s.values.issued → s.owns o = some v

theorem Sound.not_inside (hs : s.Sound G) {x : Int}
    (hx : ∀ p ∈ s.placements.rows, p.document = document → p.child ≠ x) {a : Int × FieldArgument}
    (ha : a ∈ s.argumentRows x) : ¬ s.Inside document a.2.value := by
  obtain ⟨hm, hax⟩ := List.mem_filter.mp ha
  have hget := get?_of_mem hm
  have mine := owns_argument hget
  intro hin
  rcases hin.owner with ⟨b, hb, he⟩ | ⟨_, _, l, hl, he⟩
  · obtain ⟨hgetb, p, hp, hd, hc⟩ := mem_argumentsIn.mp hb
    have hid := hs.single _ _ _ mine (he ▸ owns_argument hgetb)
    rw [← Owner.argument.inj hid, hget] at hgetb
    refine hx p hp hd ?_
    rw [hc, ← Option.some.inj hgetb]
    exact of_decide_eq_true hax
  · cases hs.single _ _ _ mine (he ▸ owns_of_mem_linksOf hl)

theorem any_argument (s : Store) (x : Int) :
    s.fieldArguments.rows.any (·.selection = x) = !(s.argumentRows x).isEmpty := by
  rw [rows, List.any_map, argumentRows, Bool.eq_iff_iff]
  simp [Function.comp_def, List.isEmpty_eq_false_iff, List.filter_eq_nil_iff]

theorem Swept.getD_moved {scope : Scope} {moved : Owner → Option Int}
    (h : Swept G s document scope moved t) {o : Owner} {v : Int}
    (hv : (moved o).getD v ≤ s.values.issued) : (moved o).getD v = v := by
  cases hm : moved o with
  | none => rfl
  | some c =>
    have := (h.copies o c hm).1
    rw [hm, Option.getD_some] at hv
    omega

/-- Copies are new, so what owns an old value owned it before. -/
theorem Swept.owns_old {scope : Scope} {moved : Owner → Option Int}
    (h : Swept G s document scope moved t) {o : Owner} {v : Int} (ho : t.owns o = some v)
    (hv : v ≤ s.values.issued) : s.owns o = some v := by
  cases o with
  | child id =>
    obtain ⟨l, hl, rfl⟩ := Option.map_eq_some_iff.mp ho
    have hlt := h.sound.descends l (mem_rows_of_get? hl)
    have hmem : (id, l) ∈ t.linksOf l.parent := mem_linksOf.mpr ⟨hl, rfl⟩
    rw [h.links _ (by omega)] at hmem
    obtain ⟨l₀, hl₀, he⟩ := List.mem_map.mp hmem
    cases he
    rw [h.getD_moved hv]
    exact owns_of_mem_linksOf hl₀
  | argument id =>
    obtain ⟨a, ha, rfl⟩ := Option.map_eq_some_iff.mp ho
    have hmem : (id, a) ∈ t.argumentRows a.selection :=
      List.mem_filter.mpr ⟨mem_of_get? ha, by simp⟩
    rw [h.arguments] at hmem
    obtain ⟨a₀, ha₀, he⟩ := List.mem_map.mp hmem
    cases he
    rw [h.getD_moved hv]
    exact owns_argument (get?_of_mem (List.mem_filter.mp ha₀).1)
  | directive site id =>
    rw [h.rest] at ho
    cases site <;> exact ho
  | default id =>
    rw [h.rest] at ho
    exact ho

theorem Swept.substituted {scope : Scope} {moved : Owner → Option Int}
    (h : Swept G s document scope moved t) (hs : s.Sound G)
    (complete : ∀ o v name, s.owns o = some v → s.Inside document v →
      s.variableName? v = some name → moved o = none → NameMap.get? name scope = none) :
    Substituted G s document (s.meaning scope) t where
  sound := h.sound
  rest := h.rest
  inner := by
    intro p hp hd
    rw [Store.arguments, h.arguments, Store.arguments, List.map_map, List.map_map]
    refine List.map_congr_left fun a ha => ?_
    obtain ⟨hm, hax⟩ := List.mem_filter.mp ha
    have hget := get?_of_mem hm
    have mine := owns_argument hget
    have hin : a ∈ s.argumentsIn document :=
      mem_argumentsIn.mpr ⟨hget, p, hp, hd, (of_decide_eq_true hax).symm⟩
    simp only [Function.comp_apply, Prod.mk.injEq, true_and]
    cases hma : moved (.argument a.1) with
    | some c => exact h.read_moved hs mine hma
    | none =>
      refine h.read_inside hs complete (.argument hin) fun o ho => ?_
      rw [hs.single o _ _ ho mine, hma]
  outer := by
    intro x hx
    rw [Store.arguments, h.arguments, Store.arguments, List.map_map]
    refine List.map_congr_left fun a ha => ?_
    have hout := hs.not_inside hx ha
    have mine := owns_argument (get?_of_mem (List.mem_filter.mp ha).1)
    have hma : moved (.argument a.1) = none := by
      cases hma : moved (.argument a.1) with
      | none => rfl
      | some c =>
        obtain ⟨_, _, v, _, _, ho, hin, _⟩ := h.copies _ c hma
        cases mine.symm.trans ho
        exact absurd hin hout
    simp only [Function.comp_apply, hma, Option.getD_none]
    rw [(h.read_outside hs (hs.closed.contains_of_owns mine) hout).2]
  isOwned := by
    intro x row
    have huses : t.directives .selection = s.directives .selection := by
      rw [h.rest]
      rfl
    rw [Store.isOwned, Store.isOwned, any_argument, any_argument, h.arguments, List.isEmpty_map,
      huses]
  kept := fun v hv hout => h.read_outside hs hv hout
  owns := fun _ _ ho hv => h.owns_old ho hv

theorem Swept.directVariables_eq {scope : Scope} {moved : Owner → Option Int}
    (h : Swept G s document scope moved t) (hs : s.Sound G)
    (hm : ∀ id, moved (.argument id) = none) :
    t.directVariables document = s.directVariables document := by
  have hrows : ∀ x, t.argumentRows x = s.argumentRows x := by
    intro x
    rw [h.arguments]
    simp [hm]
  have hplacements : t.placements = s.placements := by rw [h.rest]
  have hin : t.argumentsIn document = s.argumentsIn document := by
    simp only [argumentsIn, hplacements, hrows]
  rw [directVariables, directVariables, hin]
  refine List.filterMap_congr fun a ha => ?_
  have mine := owns_argument (mem_argumentsIn.mp ha).1
  have hget := h.values a.2.value
    (le_issued_of_contains (hs.closed.contains_of_owns mine)) fun o ho => by
      rw [hs.single o _ _ ho mine, hm]
  simp only [variableName?, hget]

theorem Sound.substitute (hs : s.Sound G) (hG : ¬ G document) {scope : Scope}
    (hscope : ∀ name value, NameMap.get? name scope = some value →
      s.values.contains value ∧ ¬ s.Inside document value) :
    ∃ t, s.substitute document scope = .ok t ∧
      Substituted G s document (s.meaning scope) t := by
  -- First the variables inside lists and objects.
  obtain ⟨t₁, moved₁, step₁, h₁, hmoved₁⟩ := Swept.sweep hs hG hscope Owner.child
    (fun _ _ => Owner.child.inj) Store.setLink (fun _ _ _ => rfl) (s.nestedVariables document)
    (Swept.refl hs document scope)
    (fun f hf => by
      obtain ⟨l, hl, hin, hv, hname⟩ := mem_nestedVariables.mp hf
      have hmem : (f.1, l) ∈ s.linksOf l.parent := mem_linksOf.mpr ⟨hl, rfl⟩
      exact ⟨hv ▸ owns_of_mem_linksOf hmem, hv ▸ hin.child hmem, hname, rfl⟩)
    (by
      refine List.Pairwise.filterMap _ (fun a b hab f hf g hg => ?_) s.valueLinks.ordered
      obtain ⟨_, hf⟩ := Option.ite_none_right_eq_some.mp hf
      obtain ⟨_, hg⟩ := Option.ite_none_right_eq_some.mp hg
      obtain ⟨_, _, rfl⟩ := Option.map_eq_some_iff.mp hf
      obtain ⟨_, _, rfl⟩ := Option.map_eq_some_iff.mp hg
      exact Int.ne_of_lt hab)
  have still : ∀ id, moved₁ (.argument id) = none := fun id => (hmoved₁ _).mpr ⟨rfl, by simp⟩
  -- Then those that are arguments.
  obtain ⟨t₂, moved₂, step₂, h₂, hmoved₂⟩ := Swept.sweep hs hG hscope Owner.argument
    (fun _ _ => Owner.argument.inj) Store.setArgument (fun _ _ _ => rfl)
    (s.directVariables document) h₁
    (fun f hf => by
      obtain ⟨a, ha, hv, hname⟩ := mem_directVariables.mp hf
      have hown := owns_argument (mem_argumentsIn.mp ha).1
      exact ⟨hv ▸ hown, hv ▸ Inside.argument ha, hname, still f.1⟩)
    (by
      refine List.Pairwise.filterMap _ (fun a b hab f hf g hg => ?_) (distinctBy_pairwise _ _)
      obtain ⟨_, _, rfl⟩ := Option.map_eq_some_iff.mp hf
      obtain ⟨_, _, rfl⟩ := Option.map_eq_some_iff.mp hg
      exact hab)
  refine ⟨t₂, ?_, h₂.substituted hs fun o v name ho hin hname hm => ?_⟩
  · rw [Store.substitute, step₁]
    change (t₁.directVariables document).foldlM _ t₁ = _
    rw [h₁.directVariables_eq hs still]
    exact step₂
  · -- Everything inside has its turn.
    obtain ⟨hm₁, hdirect⟩ := (hmoved₂ o).mp hm
    obtain ⟨_, hnested⟩ := (hmoved₁ o).mp hm₁
    rcases hin.owner with ⟨a, ha, rfl⟩ | ⟨p, hp, l, hl, rfl⟩
    · have hown := hs.single _ o _ (owns_argument (mem_argumentsIn.mp ha).1) ho
      exact hdirect (a.1, a.2.value, name) (mem_directVariables.mpr ⟨a.2, ha, rfl, hname⟩) hown
    · obtain ⟨hget, hparent⟩ := mem_linksOf.mp hl
      have hown := hs.single _ o _ (owns_of_mem_linksOf hl) ho
      exact hnested (l.1, l.2.value, name)
        (mem_nestedVariables.mpr ⟨l.2, hget, hparent.symm ▸ hp, rfl, hname⟩) hown

end Store

end GraphDoc

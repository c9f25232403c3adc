import GraphDoc.Proofs.Store.Reading

/-!
# New values

`Store.AddsValues` relates a store to one with more values and more links, which leave old values
below which nothing was put as they were. `Store.Added` says of a new row that it is the root of a
value; `Store.addValue` adds such a root.
-/

set_option autoImplicit false

namespace GraphDoc

open Table

/-- The children of a value fit its kind, at every depth. -/
inductive Value.Shaped : Value → Prop where
  | node {kind : ValueKind} {raw : String} {children : List (Option String × Value)}
      (fits : ∀ c ∈ children, Store.Fits kind c.1) (below : ∀ c ∈ children, c.2.Shaped) :
      Value.Shaped (.node kind raw children)

namespace Store

variable {s s' s'' : Store} {G : Int → Prop} {Q Q' : Int → Prop}

/-- `s'` is `s` with more values and with more links, from parents that `Q` holds of to new
values. -/
structure AddsValues (Q : Int → Prop) (s s' : Store) : Prop where
  rest : s' = { s with values := s'.values, valueLinks := s'.valueLinks }
  values : Table.Grows (fun _ => True) s.values s'.values
  links : Table.Grows (fun l => Q l.parent ∧ (s.values.issued : Int) < l.value)
    s.valueLinks s'.valueLinks

namespace AddsValues

theorem refl (Q : Int → Prop) (s : Store) : AddsValues Q s s := ⟨rfl, .refl, .refl⟩

theorem trans (h : AddsValues Q s s') (h' : AddsValues Q' s' s'') (hQ : ∀ p, Q' p → Q p) :
    AddsValues Q s s'' := by
  refine ⟨?_, h.values.trans h'.values, h.links.trans (h'.links.mono ?_)⟩
  · rw [h'.rest, h.rest]
  · intro l hl
    have := h.values.issued_le
    exact ⟨hQ _ hl.1, by omega⟩

theorem mono (h : AddsValues Q s s') (hQ : ∀ p, Q p → Q' p) : AddsValues Q' s s' :=
  ⟨h.rest, h.values, h.links.mono fun _ hl => ⟨hQ _ hl.1, hl.2⟩⟩

theorem addValueRow (Q : Int → Prop) (s : Store) (row : ValueRow) :
    AddsValues Q s (s.addValueRow row).1 := ⟨rfl, .push .refl trivial, .refl⟩

theorem addValueLink {row : ValueLink} (h : AddsValues Q s s') (hp : Q row.parent)
    (hv : (s.values.issued : Int) < row.value) : AddsValues Q s (s'.addValueLink row).1 := by
  refine ⟨?_, h.values, .push h.links ⟨hp, hv⟩⟩
  simp only [Store.addValueLink]
  rw [h.rest]

theorem directives (h : AddsValues Q s s') (site : Site) :
    s'.directives site = s.directives site := by
  rw [h.rest]
  rfl

/-- New owners are links and refer to new values. -/
theorem owns (h : AddsValues Q s s') {o : Owner} {v : Int} (ho : s'.owns o = some v) :
    s.owns o = some v ∨ (o.IsChild ∧ (s.values.issued : Int) < v) := by
  cases o with
  | child id =>
    obtain ⟨l, hl, rfl⟩ := Option.map_eq_some_iff.mp ho
    rcases h.links.mem_entries (mem_of_get? hl) with he | ⟨_, hl⟩
    · exact .inl (Option.map_eq_some_iff.mpr ⟨l, get?_of_mem he, rfl⟩)
    · exact .inr ⟨trivial, hl.2⟩
  | directive site id =>
    rw [Store.owns, h.directives] at ho
    exact .inl ho
  | _ =>
    rw [h.rest] at ho
    exact .inl ho

theorem unowned (h : AddsValues Q s s') {v : Int} (hv : v ≤ s.values.issued)
    (free : s.Unowned v) : s'.Unowned v := by
  intro o ho
  rcases h.owns ho with ho | ⟨_, hlt⟩
  · exact free o ho
  · omega

theorem get? (h : AddsValues Q s s') {id : Int} (hid : s.values.contains id) :
    s'.values.get? id = s.values.get? id :=
  h.values.get?_of_le (le_issued_of_contains hid)

theorem documentOf (h : AddsValues Q s s') {id : Int} (hid : s.values.contains id) :
    s'.documentOf id = s.documentOf id := by
  rw [Store.documentOf, Store.documentOf, h.get? hid]

theorem linksOf (h : AddsValues Q s s') {id : Int} (hid : ¬ Q id) :
    s'.linksOf id = s.linksOf id := by
  refine h.links.filter_entries (q := fun l => decide (l.parent = id)) fun l hl => ?_
  simp only [decide_eq_false_iff_not]
  rintro rfl
  exact hid hl.1

/-- A value that no new link was put below reads as before. -/
theorem read_of_closed (h : AddsValues Q s s') {G' : Int → Prop} (hs : s.Sound G)
    (hs' : s'.Sound G') {P : Int → Prop} (hP : ∀ id, P id → ¬ Q id ∧
      s.values.contains id ∧ ∀ l ∈ s.linksOf id, P l.2.value) {id : Int} (hid : P id) :
    s'.read id = s.read id := by
  refine hs.read_frame hs' (P := P) (fun n hn => ?_) hid
  obtain ⟨hQ, hc, hl⟩ := hP n hn
  exact ⟨hc, h.get? hc, h.linksOf hQ, hl⟩

theorem read (h : AddsValues Q s s') {G' : Int → Prop} (hs : s.Sound G) (hs' : s'.Sound G')
    (hQ : ∀ p, Q p → (s.values.issued : Int) < p) {id : Int}
    (hid : s.values.contains id) : s'.read id = s.read id := by
  refine h.read_of_closed hs hs' (P := fun n => s.values.contains n) (fun n hn => ?_) hid
  refine ⟨fun hq => ?_, hn, fun l hl => hs.contains_child hl⟩
  have := hQ n hq
  have := le_issued_of_contains hn
  omega

end AddsValues

/-- `id` is the root of the value `v`, which `s'` has and `s` has not. -/
structure Added (G : Int → Prop) (s s' : Store) (document? : Option Int) (id : Int) (v : Value) :
    Prop where
  adds : AddsValues (fun p => (s.values.issued : Int) < p) s s'
  sound : s'.Sound G
  new : id = s.values.nextId
  here : s'.values.contains id = true
  free : s'.Unowned id
  document : s'.documentOf id = document?
  reads : s'.read id = v

namespace Added

variable {document? : Option Int} {id : Int} {v : Value}

theorem issued_lt (h : Added G s s' document? id v) : (s.values.issued : Int) < id :=
  h.new ▸ s.values.issued_lt_nextId

theorem read_old (h : Added G s s' document? id v) (hs : s.Sound G) {n : Int}
    (hn : s.values.contains n) : s'.read n = s.read n :=
  h.adds.read hs h.sound (fun _ hp => hp) hn

end Added

theorem Added.link {document? : Option Int} {id parent : Int} {v : Value} {row : ValueRow}
    {name? : Option String} {p : Position} (h : Added G s s' document? id v) (hs : s.Sound G)
    (hrow : s.values.get? parent = some row) (hf : Fits row.kind name?)
    (hd : row.document? = document?) :
    (s'.addValueLink ⟨parent, id, name?, p⟩).1.Sound G ∧
    AddsValues (fun n => n = parent ∨ (s.values.issued : Int) < n) s
      (s'.addValueLink ⟨parent, id, name?, p⟩).1 ∧
    ((s'.addValueLink ⟨parent, id, name?, p⟩).1.linksOf parent).map (fun l =>
        (l.2.name?, (s'.addValueLink ⟨parent, id, name?, p⟩).1.read l.2.value)) =
      (s.linksOf parent).map (fun l => (l.2.name?, s.read l.2.value)) ++ [(name?, v)] := by
  have hc := contains_of_get? hrow
  have hle := le_issued hrow
  have hid := h.issued_lt
  have hrow' : s'.values.get? parent = some row := (h.adds.get? hc).trans hrow
  have sound : (s'.addValueLink ⟨parent, id, name?, p⟩).1.Sound G :=
    h.sound.addValueLink hrow' h.here h.free (by simp only; omega) hf (h.document.trans hd.symm)
  refine ⟨sound, (h.adds.mono fun _ => .inr).addValueLink (.inl rfl) hid, ?_⟩
  have hlinks : (s'.addValueLink ⟨parent, id, name?, p⟩).1.linksOf parent =
      s.linksOf parent ++ [(s'.valueLinks.nextId, ⟨parent, id, name?, p⟩)] := by
    have hold : s'.linksOf parent = s.linksOf parent := h.adds.linksOf (by omega)
    rw [linksOf_addValueLink, if_pos rfl, hold]
  -- Numbers grow towards the children, so no value beyond the parent contains it.
  have beyond : ∀ n, parent < n → s'.values.contains n →
      (s'.addValueLink ⟨parent, id, name?, p⟩).1.read n = s'.read n := by
    intro n hn hc
    refine h.sound.read_frame sound (P := fun n => parent < n ∧ s'.values.contains n)
      (fun m hm => ⟨hm.2, rfl, ?_, fun l hl => ?_⟩) ⟨hn, hc⟩
    · rw [linksOf_addValueLink, if_neg (by simp only; omega), List.append_nil]
    · have := h.sound.lt_child hl
      exact ⟨by omega, h.sound.contains_child hl⟩
  rw [hlinks, List.map_append, List.map_singleton, beyond id (by omega) h.here, h.reads]
  congr 1
  refine List.map_congr_left fun l hl => ?_
  have hlc := hs.contains_child hl
  rw [beyond _ (hs.lt_child hl) (h.adds.values.contains hlc), h.read_old hs hlc]

theorem addValue_node (s : Store) (owner? : Option Int) (p : Position)
    (expected? : Option TypeRef) (kind : ValueKind) (raw : String)
    (children : List (Option String × Value)) :
    s.addValue owner? p expected? (.node kind raw children) =
      ((s.addValueRow ⟨kind, raw, expected?, owner?, p⟩).1.addChildren owner? p expected?
        s.values.nextId children, s.values.nextId) := by
  rw [addValue]
  rfl

theorem addChildren_cons (s : Store) (owner? : Option Int) (p : Position)
    (expected? : Option TypeRef) (parent : Int) (name? : Option String) (v : Value)
    (rest : List (Option String × Value)) :
    s.addChildren owner? p expected? parent ((name?, v) :: rest) =
      ((s.addValue owner? p (expectedChild s.schema expected? name?) v).1.addValueLink
        ⟨parent, (s.addValue owner? p (expectedChild s.schema expected? name?) v).2, name?,
          p⟩).1.addChildren owner? p expected? parent rest := by
  rw [addChildren]

/-- Only values and their links differ. -/
def Revalues (s t : Store) : Prop := t = { s with values := t.values, valueLinks := t.valueLinks }

theorem Revalues.trans (h : Revalues s s') (h' : Revalues s' s'') : Revalues s s'' := by
  unfold Revalues at h h' ⊢
  rw [h', h]

mutual

theorem addValue_revalues (s : Store) (owner? : Option Int) (p : Position)
    (expected? : Option TypeRef) : (v : Value) → Revalues s (s.addValue owner? p expected? v).1
  | .node kind raw children => by
    have row : Revalues s (s.addValueRow ⟨kind, raw, expected?, owner?, p⟩).1 := rfl
    rw [addValue_node]
    exact row.trans (addChildren_revalues _ owner? p expected? s.values.nextId children)

theorem addChildren_revalues (s : Store) (owner? : Option Int) (p : Position)
    (expected? : Option TypeRef) (parent : Int) : (cs : List (Option String × Value)) →
    Revalues s (s.addChildren owner? p expected? parent cs)
  | [] => rfl
  | (name?, v) :: rest => by
    have child := addValue_revalues s owner? p (expectedChild s.schema expected? name?) v
    rw [addChildren_cons]
    generalize s.addValue owner? p (expectedChild s.schema expected? name?) v = r at *
    have link : Revalues r.1 (r.1.addValueLink ⟨parent, r.2, name?, p⟩).1 := rfl
    exact child.trans (link.trans (addChildren_revalues _ owner? p expected? parent rest))

end

mutual

theorem addValue_added {s : Store} (hs : s.Sound G) {owner? : Option Int}
    (ho : ∀ d, owner? = some d → s.documents.contains d) (p : Position)
    (expected? : Option TypeRef) : (v : Value) → v.Shaped →
    Added G s (s.addValue owner? p expected? v).1 owner? (s.addValue owner? p expected? v).2 v
  | .node kind raw children, hv => by
    obtain ⟨fits, below⟩ := hv
    let row : ValueRow := ⟨kind, raw, expected?, owner?, p⟩
    have hs₁ : (s.addValueRow row).1.Sound G := hs.addValueRow ho
    have hrow : (s.addValueRow row).1.values.get? s.values.nextId = some row :=
      get?_push_nextId ..
    have hroot := s.values.issued_lt_nextId
    have hissued : ((s.addValueRow row).1.values.issued : Int) = s.values.issued + 1 := by
      simp [Store.addValueRow]
    obtain ⟨sound, adds, reads⟩ := addChildren_spec hs₁ ho p expected? hrow rfl children fits below
    rw [addValue_node]
    refine ⟨?_, sound, rfl, ?_, ?_, ?_, ?_⟩
    · exact (AddsValues.addValueRow _ s row).trans adds fun n hn => by omega
    · exact adds.values.contains (contains_of_get? hrow)
    · refine adds.unowned (le_issued hrow) ?_
      exact fun o ho => hs.closed.unowned_nextId o (by cases o <;> exact ho)
    · exact (adds.documentOf (contains_of_get? hrow)).trans (by simp [row])
    · rw [sound.read_eq ((adds.get? (contains_of_get? hrow)).trans hrow), reads,
        show (s.addValueRow row).1.linksOf s.values.nextId = [] from ?_]
      · rfl
      · exact hs.linksOf_eq_nil fun hc => by
          have := le_issued_of_contains hc
          omega

theorem addChildren_spec {s : Store} (hs : s.Sound G) {owner? : Option Int}
    (ho : ∀ d, owner? = some d → s.documents.contains d) (p : Position)
    (expected? : Option TypeRef) {parent : Int} {row : ValueRow}
    (hrow : s.values.get? parent = some row) (hd : row.document? = owner?) :
    (cs : List (Option String × Value)) → (∀ c ∈ cs, Fits row.kind c.1) →
      (∀ c ∈ cs, c.2.Shaped) →
    (s.addChildren owner? p expected? parent cs).Sound G ∧
    AddsValues (fun n => n = parent ∨ (s.values.issued : Int) < n) s
      (s.addChildren owner? p expected? parent cs) ∧
    ((s.addChildren owner? p expected? parent cs).linksOf parent).map (fun l =>
        (l.2.name?, (s.addChildren owner? p expected? parent cs).read l.2.value)) =
      (s.linksOf parent).map (fun l => (l.2.name?, s.read l.2.value)) ++ cs
  | [], _, _ => ⟨hs, .refl _ _, (List.append_nil _).symm⟩
  | (name?, v) :: rest, hf, hc => by
    have hadded := addValue_added hs ho p (expectedChild s.schema expected? name?) v
      (hc _ List.mem_cons_self)
    rw [addChildren_cons]
    generalize s.addValue owner? p (expectedChild s.schema expected? name?) v = r at hadded ⊢
    obtain ⟨sound, adds, reads⟩ := hadded.link hs (p := p) hrow (hf _ List.mem_cons_self) hd
    have hle := adds.values.issued_le
    have hrow' := (adds.get? (contains_of_get? hrow)).trans hrow
    have ho' : ∀ d, owner? = some d →
        (r.1.addValueLink ⟨parent, r.2, name?, p⟩).1.documents.contains d := by
      intro d hd
      rw [adds.rest]
      exact ho d hd
    obtain ⟨sound', adds', reads'⟩ := addChildren_spec sound ho' p expected? hrow' hd rest
      (fun c hm => hf c (List.mem_cons_of_mem _ hm)) fun c hm => hc c (List.mem_cons_of_mem _ hm)
    refine ⟨sound', adds.trans adds' fun n hn => by omega, ?_⟩
    rw [reads', reads, List.append_assoc]
    rfl

end

end Store

end GraphDoc

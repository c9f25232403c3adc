import GraphDoc.FragmentArgument.Clone
import GraphDoc.Proofs.Store.Trees
import Mathlib.Data.List.Nodup

/-!
# Copying rows

A clone is put together from copies of rows. `Store.Copying` says what all steps of this share: rows
are only added, and what is added stands on rows that are new as well, so nothing that was there
looks different.
-/

set_option autoImplicit false

namespace GraphDoc

open Table

/-- An induction on the part of a list that was worked on. -/
theorem foldl_snoc_induction {α β : Type} {f : β → α → β} {P : List α → β → Prop} {b : β}
    (l : List α) (nil : P [] b)
    (snoc : ∀ pre a post, l = pre ++ a :: post → ∀ b', P pre b' → P (pre ++ [a]) (f b' a)) :
    P l (l.foldl f b) := by
  have key : ∀ post pre b', l = pre ++ post → P pre b' → P l (post.foldl f b') := by
    intro post
    induction post with
    | nil =>
      intro pre b' hl h
      rw [hl, List.append_nil]
      exact h
    | cons a post ih =>
      intro pre b' hl h
      exact ih (pre ++ [a]) (f b' a) (by rw [hl, List.append_assoc]; rfl) (snoc pre a post hl b' h)
  exact key l [] b rfl nil

namespace CopyMap

/-- The map takes the rows in `sources` to new rows, in ascending order. -/
structure Copies (m : CopyMap) (sources : List Int) (old new : Nat) : Prop where
  keys : m.map (·.1) = sources
  fresh : ∀ e ∈ m, (old : Int) < e.2 ∧ e.2 ≤ new
  ascending : (m.map (·.2)).Pairwise (· < ·)

variable {m : CopyMap} {sources : List Int} {old new : Nat}

theorem Copies.nil (old new : Nat) : Copies [] [] old new := ⟨rfl, nofun, .nil⟩

theorem Copies.snoc (h : m.Copies sources old new) (hle : old ≤ new) (id : Int) :
    (m ++ [(id, (new : Int) + 1)]).Copies (sources ++ [id]) old (new + 1) := by
  refine ⟨by simp [h.keys], fun e he => ?_, ?_⟩
  · rcases List.mem_append.mp he with he | he
    · have := h.fresh e he
      omega
    · obtain rfl := List.mem_singleton.mp he
      simp only
      omega
  · rw [List.map_append, List.pairwise_append]
    refine ⟨h.ascending, by simp, fun a ha b hb => ?_⟩
    obtain ⟨e, he, rfl⟩ := List.mem_map.mp ha
    have hb : b = (new : Int) + 1 := by simpa using hb
    have := h.fresh e he
    omega

theorem lookup_mem {id : Int} (h : id ∈ m.map (·.1)) : (id, m.image id) ∈ m := by
  induction m with
  | nil => cases h
  | cons e m ih =>
    obtain ⟨n, c⟩ := e
    by_cases he : id = n
    · subst he
      simp [image]
    · have hm : id ∈ m.map (·.1) := by simpa [he] using h
      have hi : image ((n, c) :: m) id = image m id := by
        simp [image, List.lookup_cons, beq_false_of_ne he]
      rw [hi]
      exact List.mem_cons_of_mem _ (ih hm)

theorem Copies.distinct (h : m.Copies sources old new) : (m.map (·.2)).Nodup :=
  h.ascending.imp fun hlt => by omega

theorem Copies.mem (h : m.Copies sources old new) {id : Int} (hid : id ∈ sources) :
    (id, m.image id) ∈ m := lookup_mem (h.keys.symm ▸ hid)

theorem Copies.image_fresh (h : m.Copies sources old new) {id : Int} (hid : id ∈ sources) :
    (old : Int) < m.image id ∧ m.image id ≤ new := h.fresh _ (h.mem hid)

theorem image_append_of_mem {m' : CopyMap} {id : Int} (h : id ∈ m.map (·.1)) :
    (m ++ m').image id = m.image id := by
  cases hl : m.lookup id with
  | none =>
    obtain ⟨e, he, rfl⟩ := List.mem_map.mp h
    have := (List.lookup_eq_none_iff.mp hl) e he
    simp at this
  | some c => simp [image, List.lookup_append, hl]

theorem image_append_self {id c : Int} (h : id ∉ m.map (·.1)) :
    (m ++ [(id, c)]).image id = c := by
  have hnone : m.lookup id = none := by
    rw [List.lookup_eq_none_iff]
    intro e he
    have : id ≠ e.1 := fun hi => h (hi ▸ List.mem_map_of_mem he)
    simpa using this
  simp [image, List.lookup_append, hnone]

theorem Copies.image_eq_self (h : m.Copies sources old new) {id : Int} (hid : id ∉ sources) :
    m.image id = id := by
  have hnone : m.lookup id = none := by
    rw [List.lookup_eq_none_iff]
    intro e he
    have : id ≠ e.1 := fun hi => hid (h.keys ▸ hi ▸ List.mem_map_of_mem he)
    simpa using this
  rw [image, hnone, Option.getD_none]

theorem Copies.image_inj (h : m.Copies sources old new) {id id' : Int} (hid : id ≤ old)
    (hid' : id' ≤ old) (he : m.image id = m.image id') : id = id' := by
  by_cases hs : id ∈ sources
  · have hf := h.image_fresh hs
    by_cases hs' : id' ∈ sources
    · have hm := h.mem hs
      have hm' := h.mem hs'
      rw [he] at hm
      exact congrArg Prod.fst (List.inj_on_of_nodup_map h.distinct hm hm' rfl)
    · rw [he, h.image_eq_self hs'] at hf
      omega
  · rw [h.image_eq_self hs] at he
    by_cases hs' : id' ∈ sources
    · have hf := h.image_fresh hs'
      rw [← he] at hf
      omega
    · rw [he, h.image_eq_self hs']

theorem Copies.image_lt (h : m.Copies sources old new) (hs : sources.Pairwise (· < ·))
    {id id' : Int} (hid : id ∈ sources) (hid' : id' ∈ sources) (hlt : id < id') :
    m.image id < m.image id' := by
  rw [← h.keys, List.pairwise_map] at hs
  have both := (List.pairwise_map.mp h.ascending).and hs
  have ordered : ∀ e ∈ m, ∀ e' ∈ m, e.1 < e'.1 → e.2 < e'.2 := by
    clear h hid hid'
    induction both with
    | nil => exact fun e he => absurd he List.not_mem_nil
    | @cons a l ha hl ih =>
      intro e he e' he' hlt
      rcases List.mem_cons.mp he with rfl | hm <;> rcases List.mem_cons.mp he' with rfl | hm'
      · omega
      · exact (ha e' hm').1
      · have := (ha e hm).2
        omega
      · exact ih (List.pairwise_cons.mp hs).2 e hm e' hm' hlt
  exact ordered _ (h.mem hid) _ (h.mem hid') hlt

/-- The row that a row was copied from. -/
def source (m : CopyMap) (id : Int) : Int := ((m.find? (·.2 = id)).map (·.1)).getD id

theorem Copies.source_eq_self (h : m.Copies sources old new) {id : Int} (hid : id ≤ old) :
    m.source id = id := by
  have hnone : m.find? (·.2 = id) = none := by
    refine List.find?_eq_none.mpr fun e he => ?_
    have := h.fresh e he
    simp only [decide_eq_true_eq]
    omega
  rw [source, hnone]
  rfl

theorem Copies.source_image (h : m.Copies sources old new) {id : Int} (hid : id ≤ old) :
    m.source (m.image id) = id := by
  by_cases hs : id ∈ sources
  · have hm := h.mem hs
    cases hf : m.find? (·.2 = m.image id) with
    | none => exact absurd (decide_eq_true rfl) (List.find?_eq_none.mp hf _ hm)
    | some e =>
      have he : e = (id, m.image id) :=
        List.inj_on_of_nodup_map h.distinct (List.mem_of_find?_eq_some hf) hm
          (by simpa using List.find?_some hf)
      rw [source, hf, he]
      rfl
  · rw [h.image_eq_self hs, h.source_eq_self hid]

end CopyMap

namespace Store

variable {s t t' : Store} {G : Int → Prop}

/-! ## Growth without contact -/

/-- The last number given to a row that directives of a site stand on. -/
def lastOwner (s : Store) : Site → Nat
  | .document => s.documents.issued
  | .declaration => s.declarations.issued
  | .selection => s.selections.issued

theorem usesOf_eq_nil (h : s.Closed) {site : Site} {owner : Int}
    (ho : (s.lastOwner site : Int) < owner) : (s.directives site).usesOf owner = [] := by
  refine List.filter_eq_nil_iff.mpr fun u hu => ?_
  have hm := (h.directives site).uses u.2 (mem_rows_of_get? (get?_of_mem hu))
  have hle : u.2.owner ≤ s.lastOwner site := by
    cases site <;> exact le_issued_of_contains hm
  simp only [decide_eq_true_eq]
  omega

theorem nodes_eq_nil (h : s.Closed) {site : Site} {owner : Int}
    (ho : (s.lastOwner site : Int) < owner) : s.nodes site owner = [] := by
  rw [nodes, usesOf_eq_nil h ho, List.map_nil]

structure Copying (s t : Store) : Prop where
  rest : t = { s with
    documents := t.documents, documentDirectives := t.documentDirectives
    selections := t.selections, selectionDirectives := t.selectionDirectives
    placements := t.placements, fieldArguments := t.fieldArguments
    values := t.values, valueLinks := t.valueLinks }
  documents : Table.Grows (fun _ => True) s.documents t.documents
  selections : Table.Grows (fun _ => True) s.selections t.selections
  values : Table.Grows (fun _ => True) s.values t.values
  links : Table.Grows (fun l => (s.values.issued : Int) < l.parent ∧
    (s.values.issued : Int) < l.value) s.valueLinks t.valueLinks
  fieldArguments : Table.Grows (fun a => (s.selections.issued : Int) < a.selection ∧
    (s.values.issued : Int) < a.value) s.fieldArguments t.fieldArguments
  uses : ∀ site, Table.Grows (fun u => (s.lastOwner site : Int) < u.owner)
    (s.directives site).uses (t.directives site).uses
  arguments : ∀ site, Table.Grows (fun a => ((s.directives site).uses.issued : Int) < a.owner ∧
    (s.values.issued : Int) < a.value) (s.directives site).arguments (t.directives site).arguments
  placements : Table.Grows (fun p => (s.documents.issued : Int) < p.document)
    s.placements t.placements

namespace Copying

theorem refl (s : Store) : Copying s s :=
  ⟨rfl, .refl, .refl, .refl, .refl, .refl, fun _ => .refl, fun _ => .refl, .refl⟩

theorem declarations (h : Copying s t) : t.declarations = s.declarations := by rw [h.rest]

theorem lastOwner_le (h : Copying s t) (site : Site) : s.lastOwner site ≤ t.lastOwner site := by
  cases site with
  | document => exact h.documents.issued_le
  | declaration => exact Nat.le_of_eq (by rw [lastOwner, lastOwner, h.declarations])
  | selection => exact h.selections.issued_le

theorem trans (h : Copying s t) (h' : Copying t t') : Copying s t' := by
  have hv := h.values.issued_le
  have hx := h.selections.issued_le
  have hd := h.documents.issued_le
  refine ⟨?_, h.documents.trans h'.documents, h.selections.trans h'.selections,
    h.values.trans h'.values, h.links.trans (h'.links.mono fun l hl => by omega),
    h.fieldArguments.trans (h'.fieldArguments.mono fun a ha => by omega), fun site => ?_,
    fun site => ?_, h.placements.trans (h'.placements.mono fun p hp => by omega)⟩
  · rw [h'.rest, h.rest]
  · have := h.lastOwner_le site
    exact (h.uses site).trans ((h'.uses site).mono fun u hu => by omega)
  · have := (h.uses site).issued_le
    exact (h.arguments site).trans ((h'.arguments site).mono fun a ha => by omega)

/-! Each write that is about something new keeps the relation. -/

theorem addDocument (s : Store) (row : DocumentRow) : Copying s (s.addDocument row).1 :=
  ⟨rfl, .push .refl trivial, .refl, .refl, .refl, .refl, fun site => by cases site <;> exact .refl,
    fun site => by cases site <;> exact .refl, .refl⟩

theorem addSelection (h : Copying s t) (row : SelectionRow) : Copying s (t.addSelection row).1 :=
  { h with
    rest := by rw [Store.addSelection]; conv_lhs => rw [h.rest]
    selections := .push h.selections trivial
    uses := fun site => by cases site <;> exact h.uses _
    arguments := fun site => by cases site <;> exact h.arguments _ }

theorem addValueRow (h : Copying s t) (row : ValueRow) : Copying s (t.addValueRow row).1 :=
  { h with
    rest := by rw [Store.addValueRow]; conv_lhs => rw [h.rest]
    values := .push h.values trivial
    uses := fun site => by cases site <;> exact h.uses _
    arguments := fun site => by cases site <;> exact h.arguments _ }

theorem addValueLink (h : Copying s t) {row : ValueLink}
    (hp : (s.values.issued : Int) < row.parent) (hv : (s.values.issued : Int) < row.value) :
    Copying s (t.addValueLink row).1 :=
  { h with
    rest := by rw [Store.addValueLink]; conv_lhs => rw [h.rest]
    links := .push h.links ⟨hp, hv⟩
    uses := fun site => by cases site <;> exact h.uses _
    arguments := fun site => by cases site <;> exact h.arguments _ }

theorem addFieldArgument (h : Copying s t) {row : FieldArgument}
    (hx : (s.selections.issued : Int) < row.selection) (hv : (s.values.issued : Int) < row.value) :
    Copying s (t.addFieldArgument row).1 :=
  { h with
    rest := by rw [Store.addFieldArgument]; conv_lhs => rw [h.rest]
    fieldArguments := .push h.fieldArguments ⟨hx, hv⟩
    uses := fun site => by cases site <;> exact h.uses _
    arguments := fun site => by cases site <;> exact h.arguments _ }

theorem addPlacement (h : Copying s t) {row : Placement}
    (hd : (s.documents.issued : Int) < row.document) : Copying s (t.addPlacement row).1 :=
  { h with
    rest := by rw [Store.addPlacement]; conv_lhs => rw [h.rest]
    placements := .push h.placements hd
    uses := fun site => by cases site <;> exact h.uses _
    arguments := fun site => by cases site <;> exact h.arguments _ }

theorem setDirectives (h : Copying s t) {site : Site} {T : DirectiveTables} (hsite : site ≠ .declaration)
    (uses : Table.Grows (fun u => (s.lastOwner site : Int) < u.owner) (t.directives site).uses T.uses)
    (arguments : Table.Grows (fun a => ((s.directives site).uses.issued : Int) < a.owner ∧
      (s.values.issued : Int) < a.value) (t.directives site).arguments T.arguments) :
    Copying s (t.setDirectives site T) := by
  have huses : ∀ other, Table.Grows (fun u => (s.lastOwner other : Int) < u.owner)
      (s.directives other).uses ((t.setDirectives site T).directives other).uses := by
    intro other
    rw [directives_setDirectives]
    split
    · next he => exact he ▸ (h.uses site).trans uses
    · exact h.uses other
  have harguments : ∀ other, Table.Grows (fun a => ((s.directives other).uses.issued : Int) <
      a.owner ∧ (s.values.issued : Int) < a.value) (s.directives other).arguments
      ((t.setDirectives site T).directives other).arguments := by
    intro other
    rw [directives_setDirectives]
    split
    · next he => exact he ▸ (h.arguments site).trans arguments
    · exact h.arguments other
  cases site with
  | declaration => exact absurd rfl hsite
  | document =>
    exact { h with
      rest := by rw [Store.setDirectives]; conv_lhs => rw [h.rest]
      uses := huses, arguments := harguments }
  | selection =>
    exact { h with
      rest := by rw [Store.setDirectives]; conv_lhs => rw [h.rest]
      uses := huses, arguments := harguments }

/-! ## What was there before -/

/-- New owners refer to new values. -/
theorem owns (h : Copying s t) {o : Owner} {v : Int} (ho : t.owns o = some v) :
    s.owns o = some v ∨ (s.values.issued : Int) < v := by
  cases o with
  | argument id =>
    obtain ⟨a, ha, rfl⟩ := Option.map_eq_some_iff.mp ho
    rcases h.fieldArguments.mem_entries (mem_of_get? ha) with he | ⟨_, _, hv⟩
    · exact .inl (Option.map_eq_some_iff.mpr ⟨a, get?_of_mem he, rfl⟩)
    · exact .inr hv
  | directive site id =>
    obtain ⟨a, ha, rfl⟩ := Option.map_eq_some_iff.mp ho
    rcases (h.arguments site).mem_entries (mem_of_get? ha) with he | ⟨_, _, hv⟩
    · exact .inl (Option.map_eq_some_iff.mpr ⟨a, get?_of_mem he, rfl⟩)
    · exact .inr hv
  | default id =>
    rw [Store.owns, h.declarations] at ho
    exact .inl ho
  | child id =>
    obtain ⟨l, hl, rfl⟩ := Option.map_eq_some_iff.mp ho
    rcases h.links.mem_entries (mem_of_get? hl) with he | ⟨_, _, hv⟩
    · exact .inl (Option.map_eq_some_iff.mpr ⟨l, get?_of_mem he, rfl⟩)
    · exact .inr hv

theorem linksOf (h : Copying s t) {id : Int} (hid : id ≤ s.values.issued) :
    t.linksOf id = s.linksOf id := by
  refine h.links.filter_entries (q := fun l => decide (l.parent = id)) fun l hl => ?_
  simp only [decide_eq_false_iff_not]
  omega

theorem read (h : Copying s t) (hs : s.Sound G) (ht : t.Sound G) {id : Int}
    (hid : s.values.contains id) : t.read id = s.read id := by
  refine hs.read_frame ht (P := fun n => s.values.contains n) (fun n hn => ?_) hid
  have hle := le_issued_of_contains hn
  exact ⟨hn, h.values.get?_of_le hle, h.linksOf hle, fun l hl => hs.contains_child hl⟩

theorem argumentRows (h : Copying s t) {x : Int} (hx : x ≤ s.selections.issued) :
    t.argumentRows x = s.argumentRows x := by
  refine h.fieldArguments.filter_entries (q := fun a => decide (a.selection = x)) fun a ha => ?_
  simp only [decide_eq_false_iff_not]
  omega

theorem usesOf (h : Copying s t) {site : Site} {owner : Int} (ho : owner ≤ s.lastOwner site) :
    (t.directives site).usesOf owner = (s.directives site).usesOf owner := by
  refine (h.uses site).filter_entries (q := fun u => decide (u.owner = owner)) fun u hu => ?_
  simp only [decide_eq_false_iff_not]
  omega

theorem argumentsOf (h : Copying s t) {site : Site} {use : Int}
    (hu : use ≤ (s.directives site).uses.issued) :
    (t.directives site).argumentsOf use = (s.directives site).argumentsOf use := by
  refine (h.arguments site).filter_entries (q := fun a => decide (a.owner = use)) fun a ha => ?_
  simp only [decide_eq_false_iff_not]
  omega

theorem isOwned (h : Copying s t) {x : Int} (hx : x ≤ s.selections.issued) {row : SelectionRow} :
    t.isOwned x row = s.isOwned x row := by
  have hargs := h.fieldArguments.any_rows (q := fun a => decide (a.selection = x)) fun a ha => by
    simp only [decide_eq_false_iff_not]
    omega
  have huses := (h.uses .selection).any_rows (q := fun u => decide (u.owner = x)) fun u hu => by
    have : (s.selections.issued : Int) < u.owner := hu
    simp only [decide_eq_false_iff_not]
    omega
  rw [Store.isOwned, Store.isOwned, hargs, huses]

theorem arguments_eq (h : Copying s t) (hs : s.Sound G) (ht : t.Sound G) {x : Int}
    (hx : x ≤ s.selections.issued) : t.arguments x = s.arguments x := by
  rw [Store.arguments, Store.arguments, h.argumentRows hx]
  refine List.map_congr_left fun a ha => ?_
  have hc := (hs.closed.fieldArguments a.2
    (mem_rows_of_get? (get?_of_mem (List.mem_filter.mp ha).1))).2
  rw [h.read hs ht hc]

theorem nodes_eq (h : Copying s t) (hs : s.Sound G) (ht : t.Sound G) {site : Site} {owner : Int}
    (ho : owner ≤ s.lastOwner site) : t.nodes site owner = s.nodes site owner := by
  rw [Store.nodes, Store.nodes, h.usesOf ho]
  refine List.map_congr_left fun use hu => ?_
  have hle := le_issued (get?_of_mem (List.mem_filter.mp hu).1)
  rw [nodeOf, nodeOf, h.argumentsOf hle]
  congr 1
  refine List.map_congr_left fun a ha => ?_
  have hc := ((hs.closed.directives site).arguments a.2
    (mem_rows_of_get? (get?_of_mem (List.mem_filter.mp ha).1))).2
  rw [h.read hs ht hc]

theorem placed_eq (h : Copying s t) (hs : s.Closed) {d : Int} (hd : d ≤ s.documents.issued) :
    t.placed d = s.placed d := by
  have hrows : t.placements.rows.filter (·.document = d) =
      s.placements.rows.filter (·.document = d) := by
    refine h.placements.filter_rows fun p hp => ?_
    simp only [decide_eq_false_iff_not]
    omega
  rw [placed, placed, hrows]
  refine List.filterMap_congr fun p hp => ?_
  have hm := (List.mem_filter.mp ((mem_sortBy_iff ..).mp hp)).1
  rw [h.selections.get?_of_le (le_issued_of_contains (hs.placements p hm).2.1)]

/-- A document that was there shows the same tree. -/
theorem translates (h : Copying s t) (hs : s.Sound G) (ht : t.Sound G) {d : Int}
    (hd : d ≤ s.documents.issued) :
    Translates s t (fun x => x) (fun _ row => row) (fun v => v) (s.placed d) (t.placed d) where
  placements := ⟨fun e => e, by rw [h.placed_eq hs.closed hd, List.map_id'], by simp⟩
  faithful := fun _ _ _ _ _ _ he => he
  arguments := fun e he => by
    have hx := le_issued (mem_placed he).2.2
    rw [h.arguments_eq hs ht hx, List.map_id']
  nodes := fun e he => h.nodes_eq hs ht (le_issued (mem_placed he).2.2)

end Copying

end Store

end GraphDoc

import GraphDoc.Proofs.Analysis
import GraphDoc.Proofs.Loaded

/-!
# Markers

A marker is a directive with one plain argument that the compiler itself puts on a row. It comes
after the directives that are there and changes nothing else that is read.
-/

set_option autoImplicit false

namespace GraphDoc.Store

variable {s : Store} {G : Int → Prop}

section

variable (h : s.Ready G) (site : Site) {owner document : Int}
  (hd : s.documents.contains document = true) (ho : s.isOwner site owner = true)
  {kind : ValueKind} {raw : String} (hw : (Value.leaf kind raw).Written) (tag name : String)
  (expected? : Option TypeRef) (p : Position)

include h hd ho hw

theorem read_addMarker :
    let marked := (s.addDirective site ⟨owner, tag, p⟩).1
    let filled := marked.addValueRow ⟨kind, raw, expected?, some document, p⟩
    let done := filled.1.addDirectiveArgument site
      ⟨(s.directives site).uses.nextId, name, filled.2, p⟩
    (∀ v, s.values.contains v = true → done.1.read v = s.read v) ∧
      done.1.read s.values.nextId = .leaf kind raw := by
  intro marked filled done
  have ready : marked.Ready G := h.addDirective ho
  have same : SameNames s marked := .setDirectives ..
  have values : marked.values = s.values := by cases site <;> rfl
  have added := ready.addValue (same.documents ▸ hd) p expected? hw
  constructor
  · intro v hv
    calc done.1.read v
      _ = filled.1.read v := read_setDirectives ..
      _ = marked.read v := added.read_old ready.toSound (values ▸ hv)
      _ = s.read v := read_setDirectives ..
  · calc done.1.read s.values.nextId
      _ = filled.1.read s.values.nextId := read_setDirectives ..
      _ = filled.1.read marked.values.nextId := by rw [values]
      _ = .leaf kind raw := added.reads

theorem nodes_addMarker (x : Int) :
    let marked := (s.addDirective site ⟨owner, tag, p⟩).1
    let filled := marked.addValueRow ⟨kind, raw, expected?, some document, p⟩
    let done := filled.1.addDirectiveArgument site
      ⟨(s.directives site).uses.nextId, name, filled.2, p⟩
    done.1.nodes site x = s.nodes site x ++
      if owner = x then [⟨tag, [(name, .leaf kind raw)]⟩] else [] := by
  intro marked filled done
  let use := (s.directives site).uses.nextId
  have values : marked.values = s.values := by cases site <;> rfl
  obtain ⟨old, new⟩ := read_addMarker h site hd ho hw tag name expected? p
  have uses : (done.1.directives site).usesOf x = (s.directives site).usesOf x ++
      if owner = x then [(use, ⟨owner, tag, p⟩)] else [] := by
    refine Eq.trans ?_ (usesOf_addDirective s site ⟨owner, tag, p⟩ x)
    cases site <;> rfl
  have arguments : ∀ u, (done.1.directives site).argumentsOf u =
      (s.directives site).argumentsOf u ++ if use = u then
        [((s.directives site).arguments.nextId, ⟨use, name, s.values.nextId, p⟩)] else [] := by
    intro u
    refine (argumentsOf_addDirectiveArgument filled.1 site ⟨use, name, filled.2, p⟩ u).trans ?_
    rw [← values]
    cases site <;> rfl
  rw [nodes, uses, List.map_append]
  congr 1
  · apply List.map_congr_left
    intro u hu
    have hle := Table.le_issued (Table.get?_of_mem (List.mem_filter.mp hu).1)
    have hlt := (s.directives site).uses.issued_lt_nextId
    have hne : use ≠ u.1 := by
      change (s.directives site).uses.nextId ≠ u.1
      omega
    rw [nodeOf, nodeOf, arguments, if_neg hne, List.append_nil]
    congr 1
    apply List.map_congr_left
    intro a ha
    have hrow := Table.mem_rows_of_get? (Table.get?_of_mem (List.mem_filter.mp ha).1)
    rw [old _ ((h.closed.directives site).arguments a.2 hrow).2]
  · have none : (s.directives site).argumentsOf use = [] :=
      h.closed.argumentsOf_eq_nil (s.directives site).uses.issued_lt_nextId
    by_cases hx : owner = x
    · rw [if_pos hx, if_pos hx, List.map_singleton, nodeOf, arguments, none, if_pos rfl,
        List.nil_append, List.map_singleton, new]
    · rw [if_neg hx, if_neg hx, List.map_nil]

end

end GraphDoc.Store

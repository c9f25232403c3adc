import GraphDoc.Proofs.Grammar.Accepted

/-!
# Parsing the tokens of a definition

The parser reads back the tokens that a definition is written with, whatever the positions of the
tokens are. The syntax that it gives is the same but for positions.
-/

set_option autoImplicit false

namespace GraphDoc.Grammar

open GraphDoc.Grammar.Parser

/-! ## Types and literals -/

variable {r : List Token}

theorem accepts_typeExpr {fuel n : Nat} {type : TypeExpr} (h : ProperType n type)
    (hf : (typeTokens type).length ≤ fuel) :
    Takes (typeExpr fuel) typeTokens [.bang] id type := by
  induction fuel generalizing n type with
  | zero => cases type <;> simp [typeTokens] at hf
  | succ fuel ih =>
    -- A type is a base and perhaps a bang.
    have base : ∀ {base : TypeExpr}, ProperType n base → (∀ t, base ≠ .nonNull t) →
        (typeTokens base).length ≤ fuel + 1 → ∀ {mark r : List Token},
        Accepts (do if ← optionalPunct .bang then return .nonNull base else return base) mark r
          (fun a => a = type) →
        Accepts (typeExpr (fuel + 1)) (typeTokens base ++ mark) r fun a => a = type := by
      intro base hbase hb hlen mark r tail
      rw [typeExpr]
      cases hbase with
      | nonNull => exact absurd rfl (hb _)
      | named =>
        refine .look (accepts_optionalPunct_of_lacks (.cons (by simp))) ?_
        exact accepts_name.take tail
      | @list n item hi =>
        simp only [typeTokens, List.length_cons, List.length_append, List.length_nil] at hlen
        rw [typeTokens, List.cons_append, List.append_assoc]
        refine accepts_optionalPunct.take ?_
        refine (ih hi (by omega) _ (.cons (by simp))).next ?_
        exact accepts_punct.take tail
    intro r hr
    have plain : Accepts (do if ← optionalPunct .bang then return .nonNull type else return type)
        [] r fun a => a = type := .look (accepts_optionalPunct_of_lacks hr) (.pure rfl)
    cases h with
    | named h => exact base (.named h) nofun hf plain
    | @list n item h =>
      have whole := base (.list h) nofun hf plain
      rw [List.append_nil] at whole
      exact whole
    | nonNull h hb =>
      rw [typeTokens, List.length_append] at hf
      exact base h hb (by omega) (accepts_optionalPunct.take (.pure rfl))

theorem Literal.tokens_pos (l : Literal) : 0 < l.tokens.length := by
  cases l <;> simp [Literal.tokens]

theorem takes_named {item : Parser Literal} {q : List Punct} {f : String × Literal}
    (h : Takes item Literal.tokens q id f.2) : Takes (named item) fieldTokens q id f := by
  intro r hr
  refine accepts_name.take (accepts_punct.take ?_)
  refine (h r hr).last fun l hl => ?_
  exact Prod.ext rfl hl

theorem Literal.lacks_tokens (l : Literal) {ps : List Punct}
    (h : ∀ p ∈ ps, p ∉ [Punct.dollar, .openBracket, .openBrace]) : Lacks ps l.tokens := by
  cases l <;> refine .cons fun p hp heq => ?_ <;> cases heq <;> simpa using h _ hp

theorem lacks_fieldTokens (f : String × Literal) (ps : List Punct) : Lacks ps (fieldTokens f) :=
  .cons nofun

theorem accepts_literal {constant : Bool} {fuel n : Nat} {l : Literal} (h : l.Proper constant n)
    (hf : l.tokens.length ≤ fuel) : Takes (literal constant fuel) Literal.tokens [] id l := by
  induction fuel generalizing n l with
  | zero => exact absurd l.tokens_pos (by omega)
  | succ fuel ih =>
    intro r _
    rw [literal]
    cases h with
    | var hc h =>
      refine .peek rfl fun t ht => ?_
      rw [ht, hc]
      exact accepts_advance.take (accepts_name.take (.pure rfl))
    | int | float | string | null =>
      refine .peek rfl fun t ht => ?_
      rw [ht]
      exact accepts_advance.take (.pure rfl)
    | boolean value =>
      refine .peek rfl fun t ht => ?_
      rw [ht]
      refine accepts_advance.take ?_
      cases value <;> exact .pure rfl
    | enum h hw =>
      refine .peek rfl fun t ht => ?_
      rw [ht]
      refine accepts_advance.take (.pure ?_)
      simp only [List.mem_cons, List.not_mem_nil, or_false, not_or] at hw
      split <;> simp_all
    | @list n items h =>
      refine .peek rfl fun t ht => ?_
      simp only [Literal.tokens, Literal.itemTokens_eq, List.length_cons, List.length_append] at hf
      rw [ht, Literal.tokens, Literal.itemTokens_eq]
      refine accepts_advance.take ?_
      refine (accepts_manyUntil (e := id) (by simp) (fun l hl => ih (h l hl) ?_)
        fun l _ => l.lacks_tokens (by simp)).last fun as has => ?_
      · have := length_le_of_mem (w := Literal.tokens) hl
        omega
      · rw [List.map_id, List.map_id] at has
        rw [has]
    | @object n fields ordered hn h =>
      refine .peek rfl fun t ht => ?_
      simp only [Literal.tokens, Literal.namedTokens_eq, List.length_cons,
        List.length_append] at hf
      rw [ht, Literal.tokens, Literal.namedTokens_eq]
      refine accepts_advance.take ?_
      refine (accepts_manyUntil (e := id) (by simp)
        (fun f hm => takes_named (ih (h f hm) ?_))
        fun f _ => lacks_fieldTokens f _).last fun as has => ?_
      · have := length_le_of_mem (w := fieldTokens) hm
        simp only [fieldTokens, List.length_cons] at this
        omega
      · rw [List.map_id, List.map_id] at has
        rw [has, ordered.ofPairs_eq]

/-! ## Arguments and directives -/

section

variable {fuel n : Nat}

theorem accepts_arguments {as : List (String × Literal)} (h : ProperArguments n as)
    (hf : (argumentTokens as).length ≤ fuel) :
    Takes (arguments fuel) argumentTokens [.openParen] id as := by
  intro r hr
  by_cases hempty : as = []
  · subst hempty
    exact .look (accepts_optionalPunct_of_lacks hr) (.pure rfl)
  · have written : argumentTokens as =
        .punct .openParen :: (as.flatMap fieldTokens ++ [.punct .closeParen]) :=
      if_neg (by simpa using hempty)
    rw [written] at hf ⊢
    refine accepts_optionalPunct.take ?_
    refine (accepts_someUntil (q := []) (e := id) (by simp) (fun a ha => ?_)
      (fun a _ => lacks_fieldTokens a _) hempty).mono fun as' has => ?_
    · refine takes_named (accepts_literal (h a ha).2.2 ?_)
      have := length_le_of_mem (w := fieldTokens) ha
      simp only [fieldTokens, List.length_cons, List.length_append] at this hf
      omega
    · rw [List.map_id, List.map_id] at has
      exact has

theorem accepts_directive {d : Directive} (h : d.Proper n) (hf : d.tokens.length ≤ fuel) :
    Takes (directive fuel) Directive.tokens [.openParen] Directive.unplaced d := by
  intro r hr
  rw [Directive.tokens] at hf ⊢
  refine .peek rfl fun t _ => ?_
  refine accepts_punct.take (accepts_name.take ?_)
  refine (accepts_arguments h.arguments ?_ r hr).last fun as has => ?_
  · simp only [List.length_cons] at hf
    omega
  · obtain rfl : as = d.arguments := has
    rfl

theorem accepts_directives {ds : List Directive} (h : ∀ d ∈ ds, d.Proper n)
    (hf : (ds.flatMap Directive.tokens).length ≤ fuel) (hr : Lacks [.atSign, .openParen] r) :
    Accepts (directives fuel) (ds.flatMap Directive.tokens) r
      fun as => as.map (·.unplaced) = ds.map (·.unplaced) := by
  refine accepts_manyWhile (q := [.openParen]) (by simp) (fun d hd => ?_) (fun d _ => ⟨_, rfl⟩) hr
  have := length_le_of_mem (w := Directive.tokens) hd
  exact accepts_directive (h d hd) (by omega)

end

/-! ## Selections -/

theorem Selection.lacks_tokens (x : Selection) {ps : List Punct} (h : .dots ∉ ps) :
    Lacks ps x.tokens := by
  cases x with
  | field _ label? => cases label? <;> exact .cons nofun
  | inline | spread => exact .punct h

theorem lacks_bodyTokens {xs : List Selection} {ps : List Punct} (h : .openBrace ∉ ps) :
    Lacks ps (bodyTokens xs ++ r) := .punct h

theorem lacks_directives {ds : List Directive} {ps : List Punct} (h : .atSign ∉ ps)
    (hr : Lacks ps r) : Lacks ps (ds.flatMap Directive.tokens ++ r) := by
  cases ds with
  | nil => exact hr
  | cons d ds => exact .punct h

theorem lacks_arguments {as : List (String × Literal)} {ps : List Punct} (h : .openParen ∉ ps)
    (hr : Lacks ps r) : Lacks ps (argumentTokens as ++ r) := by
  rw [argumentTokens]
  split
  · exact hr
  · exact .punct h

theorem lacks_tailTokens {xs : List Selection} {ps : List Punct} (h : .openBrace ∉ ps)
    (hr : Lacks ps r) : Lacks ps (tailTokens xs ++ r) := by
  rw [tailTokens]
  split
  · exact hr
  · exact lacks_bodyTokens h

/-- The selections in braces are taken. -/
def TakesBody (fuel : Nat) (xs : List Selection) : Prop :=
  ∀ r, Accepts (selectionSet fuel) (bodyTokens xs) r
    fun as => as.map Selection.unplaced = xs.map Selection.unplaced

section

variable {fuel n : Nat} {position place : Position} {ds : List Directive} {xs : List Selection}

theorem accepts_inline {condition? : Option String} (hd : ∀ d ∈ ds, d.Proper n)
    (hf : (ds.flatMap Directive.tokens).length ≤ fuel) (hs : TakesBody fuel xs) :
    Accepts (do
      let ds ← directives fuel
      let body ← selectionSet fuel
      return Selection.inline place condition? ds body)
      (ds.flatMap Directive.tokens ++ bodyTokens xs) r
      fun a => a.unplaced = (Selection.inline position condition? ds xs).unplaced := by
  refine (accepts_directives hd hf (lacks_bodyTokens (by simp))).bind fun ds' hds => ?_
  refine (hs r).last fun body hbody => ?_
  simp only [Selection.unplaced, Selection.allUnplaced_eq, hds, hbody]

theorem accepts_field {label? : Option String} {text : String} {as : List (String × Literal)}
    (ha : ProperArguments n as) (hd : ∀ d ∈ ds, d.Proper n)
    (hfa : (argumentTokens as).length ≤ fuel) (hfd : (ds.flatMap Directive.tokens).length ≤ fuel)
    (hs : xs ≠ [] → TakesBody fuel xs) (hr : Lacks [.openParen, .atSign, .openBrace] r) :
    Accepts (do
      let args ← arguments fuel
      let ds ← directives fuel
      let body ← if ← nextIs .openBrace then selectionSet fuel else pure []
      return Selection.field place label? text args ds body)
      (argumentTokens as ++ (ds.flatMap Directive.tokens ++ tailTokens xs)) r
      fun a => a.unplaced = (Selection.field position label? text as ds xs).unplaced := by
  have next : Lacks [.atSign, .openParen] (tailTokens xs ++ r) :=
    lacks_tailTokens (by simp) (hr.mono (by simp))
  refine (accepts_arguments ha hfa _ ?_).bind fun as' has => ?_
  · rw [List.append_assoc]
    exact lacks_directives (by simp) (next.mono (by simp))
  obtain rfl : as' = as := has
  refine (accepts_directives hd hfd next).bind fun ds' hds => ?_
  by_cases hempty : xs = []
  · subst hempty
    refine .look (accepts_nextIs_of_lacks (hr.mono (by simp))) (.pure ?_)
    simp only [Selection.unplaced, Selection.allUnplaced_eq, hds]
  · have written : tailTokens xs = bodyTokens xs := if_neg (by simpa using hempty)
    rw [written]
    refine .look (accepts_nextIs rfl) ?_
    refine (hs hempty r).last fun body hbody => ?_
    simp only [Selection.unplaced, Selection.allUnplaced_eq, hds, hbody]

end

/-- What a selection may go on with. -/
def selectionGoesOn : List Punct := [.colon, .openParen, .atSign, .openBrace]

mutual

theorem accepts_selectionSet {n : Nat} {xs : List Selection} (full : xs ≠ [])
    (h : ∀ x ∈ xs, x.Proper n) : (fuel : Nat) → (bodyTokens xs).length ≤ fuel → TakesBody fuel xs
  | 0, hf => absurd hf (by simp [bodyTokens])
  | fuel + 1, hf => by
    intro r
    rw [selectionSet]
    refine accepts_punct.take ?_
    refine accepts_someUntil (q := selectionGoesOn) (by simp [selectionGoesOn]) (fun x hx => ?_)
      (fun x _ => x.lacks_tokens (by simp [selectionGoesOn])) full
    refine accepts_selection (h x hx) fuel ?_
    have := length_le_of_mem (w := Selection.tokens) hx
    simp only [bodyTokens, List.length_cons, List.length_append] at hf
    omega

theorem accepts_selection {n : Nat} {x : Selection} (h : x.Proper n) : (fuel : Nat) →
    x.tokens.length ≤ fuel →
      Takes (selection fuel) Selection.tokens selectionGoesOn Selection.unplaced x
  | 0, hf => by
    obtain ⟨t, more, ht, _⟩ : Lacks [] x.tokens := x.lacks_tokens List.not_mem_nil
    simp [ht] at hf
  | fuel + 1, hf => by
    intro r hr
    rw [selection]
    cases h with
    | @field n position label? name as ds xs hl hn ha hd room hs =>
      rw [Selection.tokens_field] at hf ⊢
      have body : xs ≠ [] → TakesBody fuel xs := fun hne => by
        refine accepts_selectionSet hne hs fuel ?_
        rw [tailTokens, if_neg (by simpa using hne)] at hf
        simp only [List.length_append, List.length_cons] at hf
        omega
      have rest : ∀ place, Accepts (do
          let args ← arguments fuel
          let ds ← directives fuel
          let body ← if ← nextIs .openBrace then selectionSet fuel else pure []
          return Selection.field place label? name args ds body)
          (argumentTokens as ++ (ds.flatMap Directive.tokens ++ tailTokens xs)) r
          fun a => a.unplaced = (Selection.field position label? name as ds xs).unplaced := by
        intro place
        simp only [List.length_append, List.length_cons] at hf
        exact accepts_field ha hd (by omega) (by omega) body
          (hr.mono (by simp [selectionGoesOn]))
      cases label? with
      | none =>
        refine .look (accepts_optionalPunct_of_lacks (.cons (by simp))) ?_
        refine .peek rfl fun t _ => ?_
        refine accepts_name.take ?_
        refine .look (accepts_optionalPunct_of_lacks ?_) (rest t.position)
        rw [List.append_assoc, List.append_assoc]
        refine lacks_arguments (by simp) (lacks_directives (by simp) ?_)
        exact lacks_tailTokens (by simp) (hr.mono (by simp [selectionGoesOn]))
      | some label =>
        refine .look (accepts_optionalPunct_of_lacks (.cons (by simp))) ?_
        refine .peek rfl fun t _ => ?_
        refine accepts_name.take ?_
        refine accepts_optionalPunct.take ?_
        exact .take (accepts_name.map fun _ h => congrArg some h) (rest t.position)
    | @inline n position condition? ds xs hc hd full room hs =>
      rw [Selection.tokens_inline] at hf ⊢
      have body : TakesBody fuel xs := by
        refine accepts_selectionSet full hs fuel ?_
        simp only [List.length_append, List.length_cons] at hf
        omega
      simp only [List.length_append, List.length_cons] at hf
      refine accepts_optionalPunct.take ?_
      cases condition? with
      | none =>
        obtain ⟨p, more, hp⟩ : ∃ p more, ds.flatMap Directive.tokens ++ bodyTokens xs ++ r =
            .punct p :: more := by
          cases ds <;> exact ⟨_, _, rfl⟩
        refine .peek hp fun t _ => ?_
        refine .look (accepts_optionalWord_of_ne hp nofun) ?_
        refine .look (accepts_nextWord?_none hp nofun) ?_
        exact accepts_inline hd (by omega) body
      | some condition =>
        refine .peek rfl fun t _ => ?_
        refine accepts_optionalWord.take ?_
        refine accepts_name.take ?_
        exact accepts_inline hd (by omega) body
    | @spread n position name ds hn hw hd =>
      rw [Selection.tokens] at hf ⊢
      simp only [List.length_cons] at hf
      refine accepts_optionalPunct.take ?_
      refine .peek rfl fun t _ => ?_
      refine .look (accepts_optionalWord_of_ne rfl (by simpa using hw)) ?_
      refine .look (accepts_nextWord? rfl) ?_
      refine accepts_advance.take ?_
      refine (accepts_directives hd (by omega) (hr.mono (by simp [selectionGoesOn]))).last
        fun ds' hds => ?_
      simp only [Selection.unplaced, hds]

end

/-! ## Definitions -/

section

variable {fuel : Nat}

theorem accepts_variableDefinition {v : VariableDefinition} (h : v.Proper)
    (hf : v.tokens.length ≤ fuel) :
    Takes (variableDefinition fuel) VariableDefinition.tokens [.bang, .equals]
      VariableDefinition.unplaced v := by
  intro r hr
  rw [VariableDefinition.tokens] at hf ⊢
  simp only [List.length_cons, List.length_append] at hf
  refine .peek rfl fun t _ => ?_
  refine accepts_punct.take (accepts_name.take (accepts_punct.take ?_))
  have next : Lacks [.bang] (defaultTokens v.default? ++ r) := by
    cases v.default? with
    | none => exact hr.mono (by simp)
    | some l => exact .cons (by simp)
  refine (accepts_typeExpr h.type (by omega) _ next).bind fun type htype => ?_
  obtain rfl : type = v.type := htype
  cases hd : v.default? with
  | none =>
    refine .look (accepts_optionalPunct_of_lacks (hr.mono (by simp))) (.pure ?_)
    simp only [VariableDefinition.unplaced, hd]
  | some l =>
    rw [hd, defaultTokens, List.length_cons] at hf
    refine accepts_optionalPunct.take ?_
    have read := accepts_literal (h.default l hd) (show l.tokens.length ≤ fuel by omega) r
      (hr.mono (by simp))
    refine (read.map (R := fun d => d = some l) fun _ h => congrArg some h).last fun d hl => ?_
    simp only [VariableDefinition.unplaced, hd, hl]

theorem accepts_operationTail {o : Operation} (h : o.Proper) (place : Position)
    (hv : (declarationTokens o.declarations).length ≤ fuel)
    (hd : (o.directives.flatMap Directive.tokens).length ≤ fuel)
    (hs : (bodyTokens o.selections).length ≤ fuel) :
    Accepts (do
      let declarations ←
        if ← optionalPunct .openParen then someUntil .closeParen (variableDefinition fuel)
        else pure []
      let ds ← directives fuel
      let body := (← peek).position
      let selections ← selectionSet fuel
      return Operation.mk o.kind o.name? declarations ds selections place body)
      (declarationTokens o.declarations ++
        (o.directives.flatMap Directive.tokens ++ bodyTokens o.selections)) r
      fun a => a.unplaced = o.unplaced := by
  have rest : ∀ vs : List VariableDefinition,
      vs.map (·.unplaced) = o.declarations.map (·.unplaced) → Accepts (do
        let ds ← directives fuel
        let body := (← peek).position
        let selections ← selectionSet fuel
        return Operation.mk o.kind o.name? vs ds selections place body)
        (o.directives.flatMap Directive.tokens ++ bodyTokens o.selections) r
        fun a => a.unplaced = o.unplaced := by
    intro vs hvs
    refine (accepts_directives h.directives hd (lacks_bodyTokens (by simp))).bind fun ds hds => ?_
    refine .peek rfl fun t _ => ?_
    refine (accepts_selectionSet h.body.1 h.body.2 fuel hs r).last fun xs hxs => ?_
    simp only [Operation.unplaced, hvs, hds, hxs]
  by_cases hempty : o.declarations = []
  · rw [hempty]
    refine .look (accepts_optionalPunct_of_lacks ?_) (rest [] (by rw [hempty]))
    change Lacks _ (o.directives.flatMap Directive.tokens ++ bodyTokens o.selections ++ r)
    rw [List.append_assoc]
    exact lacks_directives (by simp) (lacks_bodyTokens (by simp))
  · have written : declarationTokens o.declarations = .punct .openParen ::
        (o.declarations.flatMap VariableDefinition.tokens ++ [.punct .closeParen]) :=
      if_neg (by simpa using hempty)
    rw [written] at hv ⊢
    refine accepts_optionalPunct.take ?_
    refine (accepts_someUntil (q := [.bang, .equals]) (by simp) (fun v hm => ?_)
      (fun v _ => .cons (by simp)) hempty).bind rest
    have := length_le_of_mem (w := VariableDefinition.tokens) hm
    simp only [List.length_cons, List.length_append] at hv
    exact accepts_variableDefinition (h.declarations v hm) (by omega)

theorem accepts_operation {o : Operation} (h : o.Proper) (hf : o.tokens.length ≤ fuel) :
    Accepts (operation fuel o.kind) o.tokens r fun a => a.unplaced = o.unplaced := by
  rw [Operation.tokens] at hf ⊢
  simp only [List.length_cons, List.length_append] at hf
  refine .peek rfl fun t _ => accepts_advance.take ?_
  have declared : (declarationTokens o.declarations).length ≤ fuel := by omega
  have tail := accepts_operationTail (r := r) h t.position declared (by omega) (by omega)
  cases hn : o.name? with
  | none =>
    rw [hn] at tail
    obtain ⟨p, more, hp⟩ : ∃ p more, declarationTokens o.declarations ++
        (o.directives.flatMap Directive.tokens ++ bodyTokens o.selections) ++ r =
        .punct p :: more := by
      rw [declarationTokens]
      split
      · cases o.directives <;> exact ⟨_, _, rfl⟩
      · exact ⟨_, _, rfl⟩
    exact .look (accepts_nextWord?_none hp nofun) tail
  | some name =>
    rw [hn] at tail
    exact .look (accepts_nextWord? rfl) (accepts_advance.take tail)

theorem accepts_fragment {f : Fragment} (h : f.Proper) (hf : f.tokens.length ≤ fuel) :
    Accepts (fragment fuel) f.tokens r fun a => a.unplaced = f.unplaced := by
  simp only [Fragment.tokens, List.length_cons, List.length_append] at hf
  refine .peek rfl fun t _ => ?_
  refine accepts_word.take (accepts_name.take (accepts_word.take (accepts_name.take ?_)))
  refine (accepts_directives h.directives (by omega) (lacks_bodyTokens (by simp))).bind
    fun ds hds => ?_
  refine (accepts_selectionSet h.body.1 h.body.2 fuel (by omega) r).last fun xs hxs => ?_
  simp only [Fragment.unplaced, hds, hxs]

theorem operationKind?_text {kind : DocumentKind} (h : kind.isOperation = true) :
    operationKind? kind.text = some kind := by
  cases kind <;> first | rfl | cases h

theorem accepts_definition {d : Definition} (h : d.Proper) (hf : d.tokens.length ≤ fuel) :
    Accepts (definition fuel) d.tokens r fun a => a.unplaced = d.unplaced := by
  cases d with
  | operation o =>
    refine .peek rfl fun t ht => ?_
    rw [ht]
    dsimp only
    rw [operationKind?_text h.kind]
    refine (accepts_operation h hf).last fun a ha => ?_
    rw [Definition.unplaced, ha]
    rfl
  | fragment f =>
    refine .peek rfl fun t ht => ?_
    rw [ht]
    refine (accepts_fragment h hf).last fun a ha => ?_
    rw [Definition.unplaced, ha]
    rfl

end

theorem accepts_definitionsUntilEnd {α : Type} {R : α → Prop} {p : Parser α} {u : List Token}
    (hp : Accepts p u [.endOfText] R) :
    Accepts (definitionsUntilEnd p) u [.endOfText] fun as => ∃ a, as = [a] ∧ R a := by
  have ended : Accepts (manyWhile (do return (← peek).token != .endOfText) p) [] [.endOfText]
      fun as => as = [] := by
    intro ts hts
    have none : Accepts (itemsWhile (do return (← peek).token != .endOfText) p (ts.length + 1)) []
        [.endOfText] fun as => as = [] := by
      refine .look (b := false) (.peek rfl fun t ht => .pure ?_) (.pure rfl)
      rw [ht]
      rfl
    exact none ts hts
  have whole : Accepts (definitionsUntilEnd p) (u ++ []) [.endOfText]
      fun as => ∃ a, as = [a] ∧ R a := by
    refine hp.bind fun a ha => ended.look (.peek rfl fun t ht => ?_)
    rw [ht]
    exact .pure ⟨a, rfl, ha⟩
  rw [List.append_nil] at whole
  exact whole

/-- A text of the tokens of one definition is parsed to this definition. -/
theorem parseDocument_of_tokens {d : Definition} (h : d.Proper) {text : String}
    (ht : (tokens text.toList).map (·.token) = d.tokens ++ [.endOfText]) :
    ∃ d', parseDocument text = .ok [d'] ∧ d'.unplaced = d.unplaced := by
  have hf : d.tokens.length ≤ (tokens text.toList).length + 1 := by
    have := congrArg List.length ht
    simp only [List.length_map, List.length_append] at this
    omega
  obtain ⟨_, ts, hp, _, d', rfl, hd⟩ :=
    accepts_definitionsUntilEnd (accepts_definition h hf) _ ht
  exact ⟨d', by rw [parseDocument, parseWith, hp], hd⟩

end GraphDoc.Grammar

import GraphDoc.Proofs.Grammar.Proper

/-!
# Tokens that a parser accepts

`Literal.tokens`, `Selection.tokens` and so on give the tokens that a piece of syntax is written
with. `Parser.Accepts p u r R` says that the parser takes the tokens `u`, whatever their positions
are, leaves the tokens `r` and gives a result that satisfies `R`. There is one lemma for each way to
combine parsers.
-/

set_option autoImplicit false

namespace GraphDoc.Grammar

/-! ## Tokens of syntax -/

mutual

/-- The tokens that a literal is written with. -/
def Literal.tokens : Literal → List Token
  | .var name => [.punct .dollar, .name name]
  | .int value => [.int value]
  | .float value => [.float value]
  | .string text => [.string text]
  | .boolean value => [.name (if value then "true" else "false")]
  | .null => [.name "null"]
  | .enum name => [.name name]
  | .list items => .punct .openBracket :: (Literal.itemTokens items ++ [.punct .closeBracket])
  | .object fields => .punct .openBrace :: (Literal.namedTokens fields ++ [.punct .closeBrace])

def Literal.itemTokens : List Literal → List Token
  | [] => []
  | l :: rest => l.tokens ++ Literal.itemTokens rest

def Literal.namedTokens : List (String × Literal) → List Token
  | [] => []
  | (name, l) :: rest => .name name :: .punct .colon :: (l.tokens ++ Literal.namedTokens rest)

end

/-- The tokens of an argument or of a field of an object. -/
def fieldTokens (f : String × Literal) : List Token := .name f.1 :: .punct .colon :: f.2.tokens

theorem Literal.itemTokens_eq (items : List Literal) :
    Literal.itemTokens items = items.flatMap Literal.tokens := by
  induction items with
  | nil => rfl
  | cons l items ih => rw [Literal.itemTokens, ih, List.flatMap_cons]

theorem Literal.namedTokens_eq (fields : List (String × Literal)) :
    Literal.namedTokens fields = fields.flatMap fieldTokens := by
  induction fields with
  | nil => rfl
  | cons f fields ih =>
    rw [Literal.namedTokens, ih, List.flatMap_cons]
    rfl

def argumentTokens (arguments : List (String × Literal)) : List Token :=
  if arguments.isEmpty then []
  else .punct .openParen :: (arguments.flatMap fieldTokens ++ [.punct .closeParen])

def Directive.tokens (d : Directive) : List Token :=
  .punct .atSign :: .name d.name :: argumentTokens d.arguments

def typeTokens : TypeExpr → List Token
  | .named name => [.name name]
  | .list item => .punct .openBracket :: (typeTokens item ++ [.punct .closeBracket])
  | .nonNull item => typeTokens item ++ [.punct .bang]

def labelTokens : Option String → List Token
  | none => []
  | some label => [.name label, .punct .colon]

def conditionTokens : Option String → List Token
  | none => []
  | some condition => [.name "on", .name condition]

mutual

def Selection.tokens : Selection → List Token
  | .field _ label? name arguments directives selections =>
    labelTokens label? ++ .name name :: (argumentTokens arguments ++
      (directives.flatMap Directive.tokens ++
        if selections.isEmpty then []
        else .punct .openBrace :: (Selection.allTokens selections ++ [.punct .closeBrace])))
  | .inline _ condition? directives selections =>
    .punct .dots :: (conditionTokens condition? ++ (directives.flatMap Directive.tokens ++
      .punct .openBrace :: (Selection.allTokens selections ++ [.punct .closeBrace])))
  | .spread _ name directives =>
    .punct .dots :: .name name :: directives.flatMap Directive.tokens

def Selection.allTokens : List Selection → List Token
  | [] => []
  | x :: rest => x.tokens ++ Selection.allTokens rest

end

theorem Selection.allTokens_eq (xs : List Selection) :
    Selection.allTokens xs = xs.flatMap Selection.tokens := by
  induction xs with
  | nil => rfl
  | cons x xs ih => rw [Selection.allTokens, ih, List.flatMap_cons]

def bodyTokens (selections : List Selection) : List Token :=
  .punct .openBrace :: (selections.flatMap Selection.tokens ++ [.punct .closeBrace])

/-- The tokens of the selections of a field, which may have none. -/
def tailTokens (selections : List Selection) : List Token :=
  if selections.isEmpty then [] else bodyTokens selections

theorem Selection.tokens_field (position : Position) (label? : Option String) (name : String)
    (arguments : List (String × Literal)) (directives : List Directive)
    (selections : List Selection) :
    (Selection.field position label? name arguments directives selections).tokens =
      labelTokens label? ++ .name name :: (argumentTokens arguments ++
        (directives.flatMap Directive.tokens ++ tailTokens selections)) := by
  rw [Selection.tokens, Selection.allTokens_eq]
  rfl

theorem Selection.tokens_inline (position : Position) (condition? : Option String)
    (directives : List Directive) (selections : List Selection) :
    (Selection.inline position condition? directives selections).tokens =
      .punct .dots :: (conditionTokens condition? ++
        (directives.flatMap Directive.tokens ++ bodyTokens selections)) := by
  rw [Selection.tokens, Selection.allTokens_eq]
  rfl

def defaultTokens : Option Literal → List Token
  | none => []
  | some l => .punct .equals :: l.tokens

def VariableDefinition.tokens (v : VariableDefinition) : List Token :=
  .punct .dollar :: .name v.name :: .punct .colon ::
    (typeTokens v.type ++ defaultTokens v.default?)

def declarationTokens (declarations : List VariableDefinition) : List Token :=
  if declarations.isEmpty then []
  else .punct .openParen ::
    (declarations.flatMap VariableDefinition.tokens ++ [.punct .closeParen])

def Operation.tokens (o : Operation) : List Token :=
  .name o.kind.text :: (o.name?.toList.map .name ++ (declarationTokens o.declarations ++
    (o.directives.flatMap Directive.tokens ++ bodyTokens o.selections)))

def Fragment.tokens (f : Fragment) : List Token :=
  .name "fragment" :: .name f.name :: .name "on" :: .name f.condition ::
    (f.directives.flatMap Directive.tokens ++ bodyTokens f.selections)

def Definition.tokens : Definition → List Token
  | .operation o => o.tokens
  | .fragment f => f.tokens

/-! ## Syntax without positions -/

def Directive.unplaced (d : Directive) : Directive := { d with position := ⟨0, 0⟩ }

def VariableDefinition.unplaced (v : VariableDefinition) : VariableDefinition :=
  { v with position := ⟨0, 0⟩ }

mutual

def Selection.unplaced : Selection → Selection
  | .field _ label? name arguments directives selections =>
    .field ⟨0, 0⟩ label? name arguments (directives.map (·.unplaced))
      (Selection.allUnplaced selections)
  | .inline _ condition? directives selections =>
    .inline ⟨0, 0⟩ condition? (directives.map (·.unplaced)) (Selection.allUnplaced selections)
  | .spread _ name directives => .spread ⟨0, 0⟩ name (directives.map (·.unplaced))

def Selection.allUnplaced : List Selection → List Selection
  | [] => []
  | x :: rest => x.unplaced :: Selection.allUnplaced rest

end

theorem Selection.allUnplaced_eq (xs : List Selection) :
    Selection.allUnplaced xs = xs.map Selection.unplaced := by
  induction xs with
  | nil => rfl
  | cons x xs ih => rw [Selection.allUnplaced, ih, List.map_cons]

def Operation.unplaced (o : Operation) : Operation where
  kind := o.kind
  name? := o.name?
  declarations := o.declarations.map (·.unplaced)
  directives := o.directives.map (·.unplaced)
  selections := o.selections.map (·.unplaced)
  position := ⟨0, 0⟩
  body := ⟨0, 0⟩

def Fragment.unplaced (f : Fragment) : Fragment where
  name := f.name
  condition := f.condition
  directives := f.directives.map (·.unplaced)
  selections := f.selections.map (·.unplaced)
  position := ⟨0, 0⟩

/-- The definition with all positions forgotten. -/
def Definition.unplaced : Definition → Definition
  | .operation o => .operation o.unplaced
  | .fragment f => .fragment f.unplaced

/-! ## Accepting -/

namespace Parser

variable {α β : Type} {R : α → Prop} {Q : β → Prop} {t : Token} {u v r : List Token}

/-- The parser takes `u`, leaves `r` and gives a result that satisfies `R`. -/
def Accepts (p : Parser α) (u r : List Token) (R : α → Prop) : Prop :=
  ∀ ts : List Lexeme, ts.map (·.token) = u ++ r →
    ∃ a ts', p ts = .ok (a, ts') ∧ ts'.map (·.token) = r ∧ R a

/-- The next token is none of these punctuators. -/
def Lacks (ps : List Punct) (r : List Token) : Prop :=
  ∃ t more, r = t :: more ∧ ∀ p ∈ ps, t ≠ .punct p

theorem Accepts.pure {a : α} (h : R a) : Accepts (Pure.pure a) [] r R :=
  fun ts hts => ⟨a, ts, rfl, hts, h⟩

theorem Accepts.bind {p : Parser β} {f : β → Parser α} (hp : Accepts p u (v ++ r) Q)
    (hf : ∀ b, Q b → Accepts (f b) v r R) : Accepts (p >>= f) (u ++ v) r R := by
  intro ts hts
  rw [List.append_assoc] at hts
  obtain ⟨b, ts', hb, hts', hQ⟩ := hp ts hts
  obtain ⟨a, ts'', ha, hts'', hR⟩ := hf b hQ ts' hts'
  refine ⟨a, ts'', ?_, hts'', hR⟩
  change (do let (b, ts) ← p ts; f b ts) = _
  rw [hb]
  exact ha

theorem Accepts.mono {p : Parser α} (h : Accepts p u r R) {S : α → Prop} (hRS : ∀ a, R a → S a) :
    Accepts p u r S := fun ts hts => by
  obtain ⟨a, ts', ha, hts', hR⟩ := h ts hts
  exact ⟨a, ts', ha, hts', hRS a hR⟩

theorem accepts_peek {w : List Token} (h : r = t :: w) :
    Accepts peek [] r fun l => l.token = t := by
  intro ts hts
  rw [h] at hts
  obtain ⟨l, rest, rfl, hl, _⟩ := List.map_eq_cons_iff.mp hts
  exact ⟨l, l :: rest, rfl, hts.trans h.symm, hl⟩

theorem accepts_advance : Accepts advance [t] r fun b => b = () := by
  intro ts hts
  obtain ⟨l, rest, rfl, _, hrest⟩ := List.map_eq_cons_iff.mp hts
  exact ⟨(), rest, rfl, hrest, rfl⟩

section

variable {p : Parser β} {f : β → Parser α} {b : β}

theorem Accepts.next (hp : Accepts p u (v ++ r) fun a => a = b) (hf : Accepts (f b) v r R) :
    Accepts (p >>= f) (u ++ v) r R := hp.bind fun _ ha => ha ▸ hf

theorem Accepts.look (hp : Accepts p [] (v ++ r) fun a => a = b) (hf : Accepts (f b) v r R) :
    Accepts (p >>= f) v r R := hp.next hf

theorem Accepts.take (hp : Accepts p [t] (v ++ r) fun a => a = b) (hf : Accepts (f b) v r R) :
    Accepts (p >>= f) (t :: v) r R := hp.next hf

end

theorem Accepts.last {p : Parser β} {f : β → α} (hp : Accepts p u r Q) (h : ∀ b, Q b → R (f b)) :
    Accepts (p >>= fun b => Pure.pure (f b)) u r R := by
  have whole := Accepts.bind (v := []) hp fun b hb => .pure (h b hb)
  rw [List.append_nil] at whole
  exact whole

theorem Accepts.map {p : Parser β} {f : β → α} (hp : Accepts p u r Q) (h : ∀ b, Q b → R (f b)) :
    Accepts (f <$> p) u r R := by
  rw [map_eq_pure_bind]
  exact hp.last h

theorem Accepts.peek {f : Lexeme → Parser α} {w : List Token} (h : v ++ r = t :: w)
    (hf : ∀ l, l.token = t → Accepts (f l) v r R) : Accepts (peek >>= f) v r R :=
  Accepts.bind (u := []) (accepts_peek h) hf

theorem accepts_nextIs {p : Punct} {w : List Token} (h : r = t :: w) :
    Accepts (nextIs p) [] r fun b => b = (t == .punct p) :=
  .peek h fun _ hl => .pure (by rw [hl])

theorem accepts_punct {p : Punct} : Accepts (punct p) [.punct p] r fun b => b = () := by
  refine .look (accepts_nextIs rfl) ?_
  rw [beq_self_eq_true, if_pos rfl]
  exact accepts_advance

theorem Lacks.cons {ps : List Punct} (h : ∀ p ∈ ps, t ≠ .punct p) : Lacks ps (t :: r) :=
  ⟨t, r, rfl, h⟩

theorem Lacks.punct {ps : List Punct} {c : Punct} (h : c ∉ ps) : Lacks ps (.punct c :: r) :=
  .cons fun _ hp heq => h (Token.punct.inj heq ▸ hp)

theorem Lacks.mono {ps qs : List Punct} (h : Lacks ps r) (hqs : ∀ q ∈ qs, q ∈ ps) :
    Lacks qs r := by
  obtain ⟨t, more, rfl, hne⟩ := h
  exact .cons fun q hq => hne q (hqs q hq)

theorem accepts_nextIs_of_lacks {p : Punct} (h : Lacks [p] r) :
    Accepts (nextIs p) [] r fun b => b = false := by
  obtain ⟨t, more, rfl, hne⟩ := h
  refine (accepts_nextIs rfl).mono fun b hb => ?_
  rw [hb, beq_eq_false_iff_ne]
  exact hne p List.mem_cons_self

theorem accepts_optionalPunct {p : Punct} :
    Accepts (optionalPunct p) [.punct p] r fun b => b = true := by
  refine .look (accepts_nextIs rfl) ?_
  rw [beq_self_eq_true, if_pos rfl]
  exact accepts_advance.take (.pure rfl)

theorem accepts_optionalPunct_of_lacks {p : Punct} (h : Lacks [p] r) :
    Accepts (optionalPunct p) [] r fun b => b = false :=
  .look (accepts_nextIs_of_lacks h) (.pure rfl)

theorem accepts_nextWord? {n : String} {w : List Token} (h : r = .name n :: w) :
    Accepts nextWord? [] r fun a => a = some n :=
  .peek h fun l hl => by
    rw [hl]
    exact .pure rfl

theorem accepts_nextWord?_none {w : List Token} (h : r = t :: w) (ht : ∀ n, t ≠ .name n) :
    Accepts nextWord? [] r fun a => a = none :=
  .peek h fun l hl => by
    rw [hl]
    cases t with
    | name n => exact absurd rfl (ht n)
    | _ => exact .pure rfl

theorem accepts_name {n : String} : Accepts name [.name n] r fun a => a = n :=
  .look (accepts_nextWord? rfl) (accepts_advance.take (.pure rfl))

theorem accepts_nextIsWord {n m : String} {w : List Token} (h : r = .name n :: w) :
    Accepts (nextIsWord m) [] r fun b => b = (some n == some m) :=
  .look (accepts_nextWord? h) (.pure rfl)

theorem accepts_word {n : String} : Accepts (word n) [.name n] r fun b => b = () := by
  refine .look (accepts_nextIsWord rfl) ?_
  rw [beq_self_eq_true, if_pos rfl]
  exact accepts_advance

theorem accepts_optionalWord {n : String} :
    Accepts (optionalWord n) [.name n] r fun b => b = true := by
  refine .look (accepts_nextIsWord rfl) ?_
  rw [beq_self_eq_true, if_pos rfl]
  exact accepts_advance.take (.pure rfl)

theorem accepts_optionalWord_of_ne {n : String} {w : List Token} (h : r = t :: w)
    (ht : t ≠ .name n) : Accepts (optionalWord n) [] r fun b => b = false := by
  have next : Accepts (nextIsWord n) [] r fun b => b = false := by
    cases t with
    | name m =>
      refine (accepts_nextIsWord h).mono fun b hb => ?_
      rw [hb, beq_eq_false_iff_ne]
      exact fun heq => ht (congrArg Token.name (Option.some.inj heq))
    | _ => exact .look (accepts_nextWord?_none h nofun) (.pure rfl)
  exact .look next (.pure rfl)

/-! ## Repetition -/

section

variable {item : Parser α} {w : α → List Token} {e : α → β} {q : List Punct} {xs : List α}

/-- An item is taken where nothing follows that it could go on with, and is the same under `e`. -/
def Takes (item : Parser α) (w : α → List Token) (q : List Punct) (e : α → β) (x : α) : Prop :=
  ∀ r, Lacks q r → Accepts item (w x) r fun a => e a = e x

theorem length_le_flatMap (h : ∀ x ∈ xs, w x ≠ []) : xs.length ≤ (xs.flatMap w).length := by
  induction xs with
  | nil => exact Nat.le_refl _
  | cons x xs ih =>
    rw [List.forall_mem_cons] at h
    have := List.length_pos_iff.mpr h.1
    have := ih h.2
    rw [List.flatMap_cons, List.length_append, List.length_cons]
    omega

theorem length_le_of_mem {x : α} (hx : x ∈ xs) : (w x).length ≤ (xs.flatMap w).length := by
  rw [List.flatMap_def]
  exact (List.sublist_flatten_of_mem (List.mem_map_of_mem hx)).length_le

theorem Lacks.append {ps : List Punct} (h : Lacks ps u) (r : List Token) : Lacks ps (u ++ r) := by
  obtain ⟨t, more, rfl, hne⟩ := h
  exact .cons hne

theorem ne_nil_of_lacks {ps : List Punct} (h : Lacks ps u) : u ≠ [] := by
  obtain ⟨t, more, rfl, _⟩ := h
  exact List.cons_ne_nil t more

section

variable {c : Punct} (hc : c ∉ q) (items : ∀ x ∈ xs, Takes item w q e x)
  (starts : ∀ x ∈ xs, Lacks (c :: q) (w x))
include hc items starts

theorem lacks_rest (r : List Token) : Lacks q (xs.flatMap w ++ .punct c :: r) := by
  cases xs with
  | nil => exact .punct hc
  | cons y ys =>
    have first := starts y List.mem_cons_self
    rw [List.flatMap_cons, List.append_assoc]
    exact (first.mono fun p hp => List.mem_cons_of_mem _ hp).append _

theorem accepts_itemsUntil {n : Nat} (hn : xs.length < n) :
    Accepts (itemsUntil c item n) (xs.flatMap w ++ [.punct c]) r
      fun as => as.map e = xs.map e := by
  induction xs generalizing n with
  | nil =>
    obtain ⟨n, rfl⟩ := Nat.exists_eq_succ_of_ne_zero (Nat.ne_of_gt hn)
    exact accepts_optionalPunct.take (.pure rfl)
  | cons x xs ih =>
    obtain ⟨n, rfl⟩ := Nat.exists_eq_succ_of_ne_zero (Nat.ne_of_gt (Nat.zero_lt_of_lt hn))
    rw [List.forall_mem_cons] at items starts
    rw [List.flatMap_cons, List.append_assoc]
    refine .look (accepts_optionalPunct_of_lacks ?_) ?_
    · rw [List.append_assoc]
      exact (starts.1.mono fun p hp => by simp_all).append _
    refine (items.1 _ ?_).bind fun a ha => ?_
    · rw [List.append_assoc]
      exact lacks_rest hc items.2 starts.2 r
    refine (ih items.2 starts.2 (Nat.lt_of_succ_lt_succ hn)).last fun as has => ?_
    rw [List.map_cons, List.map_cons, ha, has]

theorem accepts_manyUntil : Accepts (manyUntil c item) (xs.flatMap w ++ [.punct c]) r
    fun as => as.map e = xs.map e := by
  intro ts hts
  have fuel : xs.length < ts.length + 1 := by
    have count := length_le_flatMap (w := w) fun x hx => ne_nil_of_lacks (starts x hx)
    have length := congrArg List.length hts
    simp only [List.length_map, List.length_append] at length
    omega
  exact accepts_itemsUntil hc items starts fuel ts hts

theorem accepts_someUntil (full : xs ≠ []) :
    Accepts (someUntil c item) (xs.flatMap w ++ [.punct c]) r fun as => as.map e = xs.map e := by
  cases xs with
  | nil => exact absurd rfl full
  | cons x xs =>
    rw [List.forall_mem_cons] at items starts
    rw [List.flatMap_cons, List.append_assoc]
    refine (items.1 _ ?_).bind fun a ha => ?_
    · rw [List.append_assoc]
      exact lacks_rest hc items.2 starts.2 r
    refine (accepts_manyUntil hc items.2 starts.2).last fun as has => ?_
    rw [List.map_cons, List.map_cons, ha, has]

end

section

variable {c : Punct} (hc : c ∉ q) (items : ∀ x ∈ xs, Takes item w q e x)
  (starts : ∀ x ∈ xs, ∃ v, w x = .punct c :: v) (stop : Lacks (c :: q) r)
include hc items starts stop

theorem accepts_itemsWhile {n : Nat} (hn : xs.length ≤ n) :
    Accepts (itemsWhile (nextIs c) item n) (xs.flatMap w) r fun as => as.map e = xs.map e := by
  induction xs generalizing n with
  | nil =>
    cases n with
    | zero => exact .pure rfl
    | succ n =>
      exact .look (accepts_nextIs_of_lacks (stop.mono fun p hp => by simp_all)) (.pure rfl)
  | cons x xs ih =>
    obtain ⟨n, rfl⟩ := Nat.exists_eq_succ_of_ne_zero (Nat.ne_of_gt (Nat.zero_lt_of_lt hn))
    rw [List.forall_mem_cons] at items starts
    obtain ⟨v, hv⟩ := starts.1
    rw [List.flatMap_cons]
    refine .look (accepts_nextIs (t := .punct c) (w := v ++ (xs.flatMap w ++ r)) ?_) ?_
    · rw [hv, List.append_assoc]
      rfl
    rw [beq_self_eq_true, if_pos rfl]
    refine (items.1 _ ?_).bind fun a ha => ?_
    · cases xs with
      | nil => exact stop.mono fun p hp => List.mem_cons_of_mem _ hp
      | cons y ys =>
        obtain ⟨v', hv'⟩ := starts.2 y List.mem_cons_self
        rw [List.flatMap_cons, hv']
        exact .punct hc
    refine (ih items.2 starts.2 (Nat.le_of_succ_le_succ hn)).last fun as has => ?_
    rw [List.map_cons, List.map_cons, ha, has]

theorem accepts_manyWhile : Accepts (manyWhile (nextIs c) item) (xs.flatMap w) r
    fun as => as.map e = xs.map e := by
  intro ts hts
  have fuel : xs.length ≤ ts.length + 1 := by
    have count : xs.length ≤ (xs.flatMap w).length := length_le_flatMap fun x hx => by
      obtain ⟨v, hv⟩ := starts x hx
      exact hv ▸ List.cons_ne_nil _ v
    have length := congrArg List.length hts
    simp only [List.length_map, List.length_append] at length
    omega
  exact accepts_itemsWhile hc items starts stop fuel ts hts

end

end

end Parser

end GraphDoc.Grammar

import GraphDoc.Proofs.Grammar.Proper

/-!
# Parsed documents are proper

The tokens of a text are tidy: their names are names, their integers are small enough, and no more
than `depthLimit` brackets are open at once. A parser is judged by what it makes of tidy tokens.
`Parser.Meets pre p post` says that from tokens that satisfy `pre` the parser returns a result, and
leaves tokens, that satisfy `post`.
-/

set_option autoImplicit false

namespace GraphDoc.Grammar

/-- The token carries a name only if it is one, and an integer only if it has room for it. -/
def Token.InOrder : Token → Prop
  | .name text => IsName text
  | .int value => Whole.fitsSigned value = true
  | _ => True

/-- The number of open brackets after a token. -/
def Token.shift : Token → Nat → Nat
  | .punct p, depth => if p.isOpening then depth + 1 else if p.isClosing then depth - 1 else depth
  | _, depth => depth

/-- Tokens in order that never leave more brackets open than allowed, of which `depth` are open
already. -/
def Tidy : Nat → List Lexeme → Prop
  | depth, [] => depth ≤ depthLimit
  | depth, t :: ts => depth ≤ depthLimit ∧ t.token.InOrder ∧ Tidy (t.token.shift depth) ts

theorem Tidy.depth_le {depth : Nat} {ts : List Lexeme} (h : Tidy depth ts) :
    depth ≤ depthLimit := by
  cases ts with
  | nil => exact h
  | cons t ts => exact h.1

namespace Parser

variable {α β : Type} {pre : List Lexeme → Prop} {post : α → List Lexeme → Prop}
  {post' : β → List Lexeme → Prop} {depth : Nat}

def Meets (pre : List Lexeme → Prop) (p : Parser α) (post : α → List Lexeme → Prop) : Prop :=
  ∀ ts a ts', pre ts → p ts = .ok (a, ts') → post a ts'

theorem Meets.pure {a : α} (h : ∀ ts, pre ts → post a ts) : Meets pre (Pure.pure a) post := by
  intro ts b ts' hts hb
  cases hb
  exact h ts hts

theorem Meets.bind {p : Parser α} {f : α → Parser β} (hp : Meets pre p post)
    (hf : ∀ a, Meets (post a) (f a) post') : Meets pre (p >>= f) post' := by
  intro ts b ts' hts hb
  change (p ts >>= fun r => f r.1 r.2) = _ at hb
  cases hr : p ts with
  | error e =>
    rw [hr] at hb
    cases hb
  | ok r =>
    rw [hr] at hb
    exact hf r.1 r.2 b ts' (hp ts r.1 r.2 hts hr) hb

theorem Meets.map {f : α → β} {p : Parser α} (hp : Meets pre p post) :
    Meets pre (f <$> p) fun b ts => ∃ a, b = f a ∧ post a ts := by
  intro ts b ts' hts hb
  change (p ts >>= fun r => Except.ok (f r.1, r.2)) = _ at hb
  cases hr : p ts with
  | error e =>
    rw [hr] at hb
    cases hb
  | ok r =>
    rw [hr] at hb
    cases hb
    exact ⟨r.1, rfl, hp ts r.1 r.2 hts hr⟩

theorem Meets.mono {p : Parser α} (h : Meets pre p post) {pre' : List Lexeme → Prop}
    {after : α → List Lexeme → Prop} (hpre : ∀ ts, pre' ts → pre ts)
    (hpost : ∀ a ts, post a ts → after a ts) : Meets pre' p after :=
  fun ts a ts' hts ha => hpost a ts' (h ts a ts' (hpre ts hts) ha)

/-- What is known of the result before the tokens are looked at. -/
theorem Meets.given {p : Parser α} {c : Prop} (h : c → Meets pre p post) :
    Meets (fun ts => c ∧ pre ts) p post := fun ts a ts' hts => h hts.1 ts a ts' hts.2

theorem meets_fail : Meets pre (fail : Parser α) post := by
  intro ts a ts' _ ha
  cases ha

/-- The head of the tokens, and tidy tokens that start with it. -/
def Sees (depth : Nat) (t : Lexeme) (ts : List Lexeme) : Prop :=
  Tidy depth ts ∧ t = ts.headD ⟨.unreadable, ⟨0, 0⟩⟩

theorem meets_peek : Meets (Tidy depth) peek (Sees depth) := by
  rintro ts a ts' hts ⟨⟩
  exact ⟨hts, rfl⟩

theorem Meets.unseen {p : Parser α} {t : Lexeme} (h : Meets (Tidy depth) p post) :
    Meets (Sees depth t) p post := fun ts a ts' hts => h ts a ts' hts.1

theorem Meets.within {p : Parser α} (h : depth ≤ depthLimit → Meets (Tidy depth) p post) :
    Meets (Tidy depth) p post := fun ts a ts' hts => h hts.depth_le ts a ts' hts

theorem Sees.inOrder {t : Lexeme} {ts : List Lexeme} (h : Sees depth t ts) : t.token.InOrder := by
  obtain ⟨hts, rfl⟩ := h
  cases ts with
  | nil => trivial
  | cons t ts => exact hts.2.1

theorem Meets.seen {p : Parser α} {t : Lexeme} (h : t.token.InOrder → Meets (Sees depth t) p post) :
    Meets (Sees depth t) p post := fun ts a ts' hts => h hts.inOrder ts a ts' hts

theorem meets_advance {t : Lexeme} {token : Token} (ht : t.token = token) :
    Meets (Sees depth t) advance fun _ ts => Tidy (token.shift depth) ts := by
  subst ht
  rintro ts a ts' ⟨hts, rfl⟩ ⟨⟩
  cases ts with
  | nil => exact hts
  | cons t ts => exact hts.2.2

/-- Looks whether a punctuator comes next, and says what follows. -/
theorem meets_nextIs (p : Punct) : Meets (Tidy depth) (nextIs p) fun found ts =>
    ∃ t, Sees depth t ts ∧ found = (t.token == .punct p) :=
  meets_peek.bind fun t => .pure fun _ h => ⟨t, h, rfl⟩

theorem meets_advance_punct {p : Punct} :
    Meets (fun ts => ∃ t, Sees depth t ts ∧ true = (t.token == .punct p)) advance fun _ ts =>
      Tidy ((Token.punct p).shift depth) ts := by
  rintro ts a ts' ⟨t, h, hp⟩
  exact meets_advance (by simpa using hp.symm) ts a ts' h

theorem meets_optionalPunct (p : Punct) : Meets (Tidy depth) (optionalPunct p) fun found ts =>
    Tidy (if found then (Token.punct p).shift depth else depth) ts := by
  refine (meets_nextIs p).bind fun found => ?_
  cases found with
  | false => exact .pure fun ts ⟨t, h, _⟩ => h.1
  | true => exact meets_advance_punct.bind fun _ => .pure fun _ h => h

theorem meets_punct (p : Punct) :
    Meets (Tidy depth) (punct p) fun _ ts => Tidy ((Token.punct p).shift depth) ts := by
  refine (meets_nextIs p).bind fun found => ?_
  cases found with
  | false => exact meets_fail
  | true => exact meets_advance_punct

theorem meets_nextWord? : Meets (Tidy depth) nextWord? fun found ts =>
    ∃ t, Sees depth t ts ∧ ∀ text, found = some text ↔ t.token = .name text := by
  refine meets_peek.bind fun t => ?_
  split
  · next text ht => exact .pure fun _ h => ⟨t, h, fun _ => by rw [ht]; simp⟩
  · next ht => exact .pure fun _ h => ⟨t, h, fun text => by simpa using ht text⟩

/-- After a word was seen it can be passed over. -/
theorem meets_advance_word {text : String} :
    Meets (fun ts => ∃ t, Sees depth t ts ∧ t.token = .name text) advance fun _ ts =>
      IsName text ∧ Tidy depth ts := by
  rintro ts a ts' ⟨t, h, ht⟩ ha
  have hname := h.inOrder
  rw [ht] at hname
  exact ⟨hname, meets_advance ht ts a ts' h ha⟩

theorem meets_name : Meets (Tidy depth) name fun text ts => IsName text ∧ Tidy depth ts := by
  refine meets_nextWord?.bind fun found => ?_
  cases found with
  | none => exact meets_fail
  | some text =>
    refine (meets_advance_word.mono (fun ts ⟨t, h, ht⟩ => ⟨t, h, (ht text).mp rfl⟩) fun _ _ h => h).bind
      fun _ => ?_
    exact .pure fun _ h => h

theorem meets_nextIsWord (expected : String) : Meets (Tidy depth) (nextIsWord expected)
    fun found ts => ∃ t, Sees depth t ts ∧ (found = true ↔ t.token = .name expected) := by
  refine meets_nextWord?.bind fun found => .pure fun ts ⟨t, h, ht⟩ => ⟨t, h, ?_⟩
  rw [beq_iff_eq, ht]

theorem meets_word (expected : String) :
    Meets (Tidy depth) (word expected) fun _ => Tidy depth := by
  refine (meets_nextIsWord expected).bind fun found => ?_
  cases found with
  | false => exact meets_fail
  | true =>
    exact meets_advance_word.mono (fun ts ⟨t, h, ht⟩ => ⟨t, h, ht.mp rfl⟩) fun _ _ h => h.2

theorem meets_optionalWord (expected : String) :
    Meets (Tidy depth) (optionalWord expected) fun found ts => Tidy depth ts ∧
      (found = false → (ts.headD ⟨.unreadable, ⟨0, 0⟩⟩).token ≠ .name expected) := by
  refine (meets_nextIsWord expected).bind fun found => ?_
  cases found with
  | false => exact .pure fun ts ⟨t, h, ht⟩ => ⟨h.1, fun _ => by rw [← h.2, Ne, ← ht]; simp⟩
  | true =>
    refine (meets_advance_word.mono (fun ts ⟨t, h, ht⟩ => ⟨t, h, ht.mp rfl⟩) fun _ _ h => h).bind
      fun _ => .pure fun _ h => ⟨h.2, nofun⟩

theorem meets_nextWord?_of_ne (expected : String) :
    Meets (fun ts => Tidy depth ts ∧ (ts.headD ⟨.unreadable, ⟨0, 0⟩⟩).token ≠ .name expected)
      nextWord? fun found ts => ∃ t, Sees depth t ts ∧ t.token ≠ .name expected ∧
        ∀ text, found = some text ↔ t.token = .name text := by
  have peeked : Meets (fun ts => Tidy depth ts ∧
      (ts.headD ⟨.unreadable, ⟨0, 0⟩⟩).token ≠ .name expected) peek fun t ts =>
      Sees depth t ts ∧ t.token ≠ .name expected := by
    rintro ts t ts' ⟨hts, hne⟩ ⟨⟩
    exact ⟨⟨hts, rfl⟩, hne⟩
  refine peeked.bind fun t => ?_
  split
  · next text ht => exact .pure fun _ h => ⟨t, h.1, h.2, fun _ => by rw [ht]; simp⟩
  · next ht => exact .pure fun _ h => ⟨t, h.1, h.2, fun text => by simpa using ht text⟩

theorem meets_advance_word_of_ne {expected text : String} :
    Meets (fun ts => ∃ t, Sees depth t ts ∧ t.token ≠ .name expected ∧ t.token = .name text)
      advance fun _ ts => (IsName text ∧ text ≠ expected) ∧ Tidy depth ts := by
  rintro ts a ts' ⟨t, hsees, hne, ht⟩ ha
  obtain ⟨hn, hts⟩ := meets_advance_word ts a ts' ⟨t, hsees, ht⟩ ha
  refine ⟨⟨hn, fun he => hne ?_⟩, hts⟩
  rw [ht, he]

/-! ## Repetition -/

variable {P : α → Prop}

/-- What an item of a list does: it leaves the brackets as they were. -/
def Item (depth : Nat) (P : α → Prop) (p : Parser α) : Prop :=
  Meets (Tidy depth) p fun a ts => P a ∧ Tidy depth ts

theorem meets_itemsUntil {close : Punct} {item : Parser α} (hi : Item depth P item) (fuel : Nat) :
    Meets (Tidy depth) (itemsUntil close item fuel) fun as ts =>
      (∀ a ∈ as, P a) ∧ Tidy ((Token.punct close).shift depth) ts := by
  induction fuel with
  | zero => exact meets_fail
  | succ fuel ih =>
    refine (meets_optionalPunct close).bind fun found => ?_
    cases found with
    | true => exact .pure fun ts h => ⟨by simp, h⟩
    | false =>
      refine Meets.bind hi fun a => .given fun ha => ?_
      refine Meets.bind ih fun rest => ?_
      exact .pure fun _ h => ⟨List.forall_mem_cons.mpr ⟨ha, h.1⟩, h.2⟩

theorem meets_manyUntil {close : Punct} {item : Parser α} (hi : Item depth P item) :
    Meets (Tidy depth) (manyUntil close item) fun as ts =>
      (∀ a ∈ as, P a) ∧ Tidy ((Token.punct close).shift depth) ts :=
  fun ts => meets_itemsUntil hi (ts.length + 1) ts

theorem meets_someUntil {close : Punct} {item : Parser α} (hi : Item depth P item) :
    Meets (Tidy depth) (someUntil close item) fun as ts =>
      (as ≠ [] ∧ ∀ a ∈ as, P a) ∧ Tidy ((Token.punct close).shift depth) ts := by
  refine Meets.bind hi fun a => .given fun ha => ?_
  refine Meets.bind (meets_manyUntil hi) fun rest => ?_
  exact .pure fun _ h => ⟨⟨by simp, List.forall_mem_cons.mpr ⟨ha, h.1⟩⟩, h.2⟩

theorem meets_itemsWhile {more : Parser Bool} {item : Parser α}
    (hm : Meets (Tidy depth) more fun _ => Tidy depth) (hi : Item depth P item) (fuel : Nat) :
    Item depth (fun as => ∀ a ∈ as, P a) (itemsWhile more item fuel) := by
  induction fuel with
  | zero => exact .pure fun ts h => ⟨by simp, h⟩
  | succ fuel ih =>
    refine Meets.bind hm fun found => ?_
    cases found with
    | false => exact .pure fun ts h => ⟨by simp, h⟩
    | true =>
      refine Meets.bind hi fun a => .given fun ha => ?_
      refine Meets.bind ih fun rest => ?_
      exact .pure fun _ h => ⟨List.forall_mem_cons.mpr ⟨ha, h.1⟩, h.2⟩

theorem item_manyWhile {more : Parser Bool} {item : Parser α}
    (hm : Meets (Tidy depth) more fun _ => Tidy depth) (hi : Item depth P item) :
    Item depth (fun as => ∀ a ∈ as, P a) (manyWhile more item) :=
  fun ts => meets_itemsWhile hm hi (ts.length + 1) ts

end Parser

open GraphDoc.Grammar.Parser

/-! ## Values and directives -/

section

variable {α : Type} {P : α → Prop} {depth : Nat}

theorem below (room : depth + 1 ≤ depthLimit) :
    depthLimit - (depth + 1) + 1 = depthLimit - depth := by
  omega

theorem item_named {item : Parser α} (hi : Item depth P item) :
    Item depth (fun f => IsName f.1 ∧ P f.2) (named item) := by
  refine Meets.bind meets_name fun key => .given fun hk => ?_
  refine Meets.bind (meets_punct .colon) fun _ => ?_
  refine Meets.bind hi fun a => .given fun ha => ?_
  exact .pure fun _ h => ⟨⟨hk, ha⟩, h⟩

theorem item_typeExpr (fuel : Nat) : Item depth (ProperType (depthLimit - depth)) (typeExpr fuel) := by
  induction fuel generalizing depth with
  | zero => exact meets_fail
  | succ fuel ih =>
    have close : ∀ base : TypeExpr, ProperType (depthLimit - depth) base →
        (∀ t, base ≠ .nonNull t) → Item depth (ProperType (depthLimit - depth)) (do
          if ← optionalPunct .bang then return .nonNull base else return base) := by
      intro base hbase hb
      refine Meets.bind (meets_optionalPunct .bang) fun found => ?_
      cases found with
      | true => exact .pure fun _ h => ⟨.nonNull hbase hb, h⟩
      | false => exact .pure fun _ h => ⟨hbase, h⟩
    rw [typeExpr]
    refine Meets.bind (meets_optionalPunct .openBracket) fun found => ?_
    cases found with
    | true =>
      refine Meets.within fun room => ?_
      refine Meets.bind ih fun item => .given fun hi => ?_
      refine Meets.bind (meets_punct .closeBracket) fun _ => ?_
      exact close (.list item) (below room ▸ .list hi) nofun
    | false =>
      refine Meets.bind meets_name fun text => .given fun hn => ?_
      exact close (.named text) (.named hn) nofun

theorem item_literal (constant : Bool) (fuel : Nat) :
    Item depth (Literal.Proper constant (depthLimit - depth)) (literal constant fuel) := by
  induction fuel generalizing depth with
  | zero => exact meets_fail
  | succ fuel ih =>
    rw [literal]
    refine Meets.bind meets_peek fun t => ?_
    split
    · next value ht =>
      refine Meets.seen fun hv => ?_
      rw [ht] at hv
      exact (meets_advance ht).bind fun _ => .pure fun _ h => ⟨.int hv, h⟩
    · next value ht =>
      exact (meets_advance ht).bind fun _ => .pure fun _ h => ⟨.float value, h⟩
    · next text ht =>
      exact (meets_advance ht).bind fun _ => .pure fun _ h => ⟨.string text, h⟩
    · next text ht =>
      refine Meets.bind (meets_advance_word.mono (fun _ h => ⟨t, h, ht⟩) fun _ _ h => h)
        fun _ => .pure fun _ h => ⟨?_, h.2⟩
      split
      · exact .boolean true
      · exact .boolean false
      · exact .null
      · next h₁ h₂ h₃ => exact .enum h.1 (by simpa using ⟨h₁, h₂, h₃⟩)
    · next ht =>
      refine (meets_advance ht).bind fun _ => .within fun room => ?_
      refine Meets.bind (meets_manyUntil ih) fun items => .given fun hi => ?_
      exact .pure fun _ h => ⟨below room ▸ .list hi, h⟩
    · next ht =>
      refine (meets_advance ht).bind fun _ => .within fun room => ?_
      refine Meets.bind (meets_manyUntil (item_named ih)) fun fields => .given fun hf => ?_
      refine .pure fun _ h => ⟨below room ▸ .object (NameMap.ascending_ofPairs fields)
        (fun f hm => ?_) fun f hm => ?_, h⟩
      · exact (hf f (NameMap.mem_ofPairs hm)).1
      · exact (hf f (NameMap.mem_ofPairs hm)).2
    · next ht =>
      split
      · exact meets_fail
      · next hc =>
        refine (meets_advance ht).bind fun _ => ?_
        refine Meets.bind meets_name fun text => .given fun hn => ?_
        exact .pure fun _ h => ⟨.var (Bool.eq_false_iff.mpr hc) hn, h⟩
    · exact meets_fail

theorem item_arguments (fuel : Nat) :
    Item depth (ProperArguments (depthLimit - depth)) (arguments fuel) := by
  refine Meets.bind (meets_optionalPunct .openParen) fun found => ?_
  cases found with
  | true =>
    refine Meets.within fun room => ?_
    have room : depth + 1 ≤ depthLimit := room
    refine (meets_someUntil (item_named (item_literal false fuel))).mono (fun _ h => h) ?_
    refine fun as _ h => ⟨fun a ha => ⟨(h.1.2 a ha).1, by omega, ?_⟩, h.2⟩
    exact (h.1.2 a ha).2
  | false => exact .pure fun _ h => ⟨by simp [ProperArguments], h⟩

theorem item_directive (fuel : Nat) :
    Item depth (Directive.Proper (depthLimit - depth)) (directive fuel) := by
  refine Meets.bind meets_peek fun t => ?_
  refine Meets.bind (meets_punct .atSign).unseen fun _ => ?_
  refine Meets.bind meets_name fun text => .given fun hn => ?_
  refine Meets.bind (item_arguments fuel) fun args => .given fun ha => ?_
  exact .pure fun _ h => ⟨⟨hn, ha⟩, h⟩

theorem item_directives (fuel : Nat) :
    Item depth (fun ds => ∀ d ∈ ds, d.Proper (depthLimit - depth)) (directives fuel) :=
  item_manyWhile ((meets_nextIs .atSign).mono (fun _ h => h) fun _ _ ⟨_, h, _⟩ => h.1)
    (item_directive fuel)

/-! ## Selections -/

/-- The selections in braces, inside of which there is room for one bracket less. -/
def Braced (depth : Nat) (xs : List Selection) : Prop :=
  depth + 1 ≤ depthLimit ∧ xs ≠ [] ∧ ∀ x ∈ xs, x.Proper (depthLimit - (depth + 1))

section

variable {fuel : Nat} {position : Position} {condition? : Option String}

theorem item_inline (hc : ∀ c, condition? = some c → IsName c)
    (hs : Item depth (Braced depth) (selectionSet fuel)) :
    Item depth (Selection.Proper (depthLimit - depth)) (do
      let ds ← directives fuel
      let body ← selectionSet fuel
      return .inline position condition? ds body) := by
  refine Meets.bind (item_directives fuel) fun ds => .given fun hd => ?_
  refine Meets.bind hs fun body => .given fun ⟨room, full, hb⟩ => ?_
  exact .pure fun _ h => ⟨.inline hc hd full (by omega) hb, h⟩

theorem item_field {label? : Option String} (hl : ∀ l, label? = some l → IsName l) {text : String}
    (hn : IsName text) (hs : Item depth (Braced depth) (selectionSet fuel)) :
    Item depth (Selection.Proper (depthLimit - depth)) (do
      let args ← arguments fuel
      let ds ← directives fuel
      let body ← if ← nextIs .openBrace then selectionSet fuel else pure []
      return .field position label? text args ds body) := by
  refine Meets.bind (item_arguments fuel) fun args => .given fun ha => ?_
  refine Meets.bind (item_directives fuel) fun ds => .given fun hd => ?_
  refine Meets.bind ((meets_nextIs .openBrace).mono (fun _ h => h) fun _ _ ⟨_, h, _⟩ => h.1)
    fun found => ?_
  cases found with
  | true =>
    refine Meets.bind hs fun body => .given fun ⟨room, _, hb⟩ => ?_
    exact .pure fun _ h => ⟨.field hl hn ha hd (fun _ => by omega) hb, h⟩
  | false => exact .pure fun _ h => ⟨.field hl hn ha hd (by simp) (by simp), h⟩

end

mutual

theorem item_selectionSet {depth : Nat} : (fuel : Nat) →
    Item depth (Braced depth) (selectionSet fuel)
  | 0 => meets_fail
  | fuel + 1 => by
    rw [selectionSet]
    refine Meets.bind (meets_punct .openBrace) fun _ => .within fun room => ?_
    exact (meets_someUntil (item_selection fuel)).mono (fun _ h => h)
      fun _ _ h => ⟨⟨room, h.1⟩, h.2⟩

theorem item_selection {depth : Nat} : (fuel : Nat) →
    Item depth (Selection.Proper (depthLimit - depth)) (selection fuel)
  | 0 => meets_fail
  | fuel + 1 => by
    rw [selection]
    refine Meets.bind (meets_optionalPunct .dots) fun found => ?_
    cases found with
    | true =>
      refine Meets.bind meets_peek fun t => ?_
      refine Meets.bind (meets_optionalWord "on").unseen fun found => ?_
      cases found with
      | true =>
        refine Meets.mono (Meets.bind meets_name fun condition => .given fun hc => ?_)
          (fun _ h => h.1) fun _ _ h => h
        exact item_inline (fun c he => Option.some.inj he ▸ hc) (item_selectionSet fuel)
      | false =>
        refine Meets.bind ((meets_nextWord?_of_ne "on").mono (fun _ h => ⟨h.1, h.2 rfl⟩)
          fun _ _ h => h) fun found => ?_
        cases found with
        | some target =>
          refine Meets.bind (meets_advance_word_of_ne.mono
            (fun ts ⟨t, h, hon, ht⟩ => ⟨t, h, hon, (ht target).mp rfl⟩) fun _ _ h => h)
            fun _ => .given fun hn => ?_
          refine Meets.bind (item_directives fuel) fun ds => .given fun hd => ?_
          exact .pure fun _ h => ⟨.spread hn.1 hn.2 hd, h⟩
        | none =>
          exact (item_inline (by simp) (item_selectionSet fuel)).mono (fun ts ⟨_, h, _⟩ => h.1)
            fun _ _ h => h
    | false =>
      refine Meets.bind meets_peek fun t => ?_
      refine Meets.bind meets_name.unseen fun first => .given fun hfirst => ?_
      refine Meets.bind (meets_optionalPunct .colon) fun found => ?_
      cases found with
      | true =>
        refine Meets.bind meets_name.map fun second? => ?_
        rintro ts x ts' ⟨second, rfl, hsecond, hts⟩
        exact item_field (fun l he => Option.some.inj he ▸ hfirst) hsecond
          (item_selectionSet fuel) ts x ts' hts
      | false => exact item_field (by simp) hfirst (item_selectionSet fuel)

end

end

/-! ## Definitions -/

theorem item_variableDefinition (fuel : Nat) :
    Item 1 VariableDefinition.Proper (variableDefinition fuel) := by
  refine Meets.bind meets_peek fun t => ?_
  refine Meets.bind (meets_punct .dollar).unseen fun _ => ?_
  refine Meets.bind meets_name fun text => .given fun hn => ?_
  refine Meets.bind (meets_punct .colon) fun _ => ?_
  refine Meets.bind (item_typeExpr fuel) fun type => .given fun ht => ?_
  refine Meets.bind (meets_optionalPunct .equals) fun found => ?_
  cases found with
  | true =>
    refine Meets.bind (item_literal true fuel).map fun default? => ?_
    rintro ts v ts' ⟨l, rfl, hl, hts⟩ ⟨⟩
    exact ⟨⟨hn, ht, fun m hm => Option.some.inj hm ▸ hl⟩, hts⟩
  | false => exact .pure fun _ h => ⟨⟨hn, ht, nofun⟩, h⟩

theorem meets_operationTail (fuel : Nat) {kind : DocumentKind} (hk : kind.isOperation = true)
    (position : Position) {name? : Option String} (hn : ∀ n, name? = some n → IsName n) :
    Item 0 Operation.Proper (do
      let declarations ←
        if ← optionalPunct .openParen then someUntil .closeParen (variableDefinition fuel)
        else pure []
      let ds ← directives fuel
      let body := (← peek).position
      let selections ← selectionSet fuel
      return ⟨kind, name?, declarations, ds, selections, position, body⟩) := by
  have rest : ∀ declarations : List VariableDefinition, (∀ v ∈ declarations, v.Proper) →
      Item 0 Operation.Proper (do
        let ds ← directives fuel
        let body := (← peek).position
        let selections ← selectionSet fuel
        return ⟨kind, name?, declarations, ds, selections, position, body⟩) := by
    intro declarations hv
    refine Meets.bind (item_directives fuel) fun ds => .given fun hd => ?_
    refine Meets.bind meets_peek fun t => ?_
    refine Meets.bind (item_selectionSet fuel).unseen fun selections => .given fun hs => ?_
    exact .pure fun _ h => ⟨⟨hk, hn, hv, hd, hs.2⟩, h⟩
  refine Meets.bind (meets_optionalPunct .openParen) fun found => ?_
  cases found with
  | true =>
    refine Meets.bind (meets_someUntil (item_variableDefinition fuel)) fun vs => .given fun hv => ?_
    exact rest vs hv.2
  | false => exact rest [] (by simp)

theorem meets_operation (fuel : Nat) {kind : DocumentKind} (hk : kind.isOperation = true)
    (keyword : String) :
    Meets (fun ts => ∃ t, Sees 0 t ts ∧ t.token = .name keyword) (operation fuel kind) fun o ts =>
      o.Proper ∧ Tidy 0 ts := by
  have peeked : Meets (fun ts => ∃ t, Sees 0 t ts ∧ t.token = .name keyword) peek fun _ ts =>
      ∃ t, Sees 0 t ts ∧ t.token = .name keyword := by
    rintro ts a ts' hts ⟨⟩
    exact hts
  refine Meets.bind peeked fun t => ?_
  refine Meets.bind meets_advance_word fun _ => .given fun _ => ?_
  refine Meets.bind meets_nextWord? fun found => ?_
  cases found with
  | none =>
    exact (meets_operationTail fuel hk t.position (by simp)).mono (fun ts ⟨_, h, _⟩ => h.1)
      fun _ _ h => h
  | some text =>
    refine Meets.bind (meets_advance_word.mono (fun ts ⟨t, h, ht⟩ => ⟨t, h, (ht text).mp rfl⟩)
      fun _ _ h => h) fun _ => .given fun hn => ?_
    exact meets_operationTail fuel hk t.position fun n he => Option.some.inj he ▸ hn

theorem item_fragment (fuel : Nat) : Item 0 Fragment.Proper (fragment fuel) := by
  refine Meets.bind meets_peek fun t => ?_
  refine Meets.bind (meets_word "fragment").unseen fun _ => ?_
  refine Meets.bind meets_name fun text => .given fun hn => ?_
  refine Meets.bind (meets_word "on") fun _ => ?_
  refine Meets.bind meets_name fun condition => .given fun hc => ?_
  refine Meets.bind (item_directives fuel) fun ds => .given fun hd => ?_
  refine Meets.bind (item_selectionSet fuel) fun selections => .given fun hs => ?_
  exact .pure fun _ h => ⟨⟨hn, hc, hd, hs.2⟩, h⟩

theorem isOperation_of_operationKind? {keyword : String} {kind : DocumentKind}
    (h : operationKind? keyword = some kind) : kind.isOperation = true := by
  have hm := List.mem_of_find?_eq_some h
  simp only [List.mem_cons, List.not_mem_nil, or_false] at hm
  rcases hm with rfl | rfl | rfl <;> rfl

theorem item_definition (fuel : Nat) : Item 0 Definition.Proper (definition fuel) := by
  refine Meets.bind meets_peek fun head => ?_
  split
  · refine Meets.bind (item_selectionSet fuel).unseen fun selections => .given fun hs => ?_
    exact .pure fun _ h => ⟨⟨rfl, nofun, by simp, by simp, hs.2⟩, h⟩
  · next keyword ht =>
    split
    · next kind hk =>
      refine Meets.bind ((meets_operation fuel (isOperation_of_operationKind? hk) keyword).mono
        (fun _ h => ⟨head, h, ht⟩) fun _ _ h => h) fun o => .given fun ho => ?_
      exact .pure fun _ h => ⟨ho, h⟩
    · refine Meets.bind (item_fragment fuel).unseen fun f => .given fun hf => ?_
      exact .pure fun _ h => ⟨hf, h⟩
  · exact meets_fail

theorem meets_definitionsUntilEnd {α : Type} {P : α → Prop} {p : Parser α} (hp : Item 0 P p) :
    Meets (Tidy 0) (definitionsUntilEnd p) fun ds _ => ∀ d ∈ ds, P d := by
  have more : Meets (Tidy 0) (do return (← peek).token != .endOfText) fun _ => Tidy 0 :=
    meets_peek.bind fun _ => .pure fun _ h => h.1
  refine Meets.bind hp fun first => .given fun hfirst => ?_
  refine Meets.bind (item_manyWhile more hp) fun rest => .given fun hrest => ?_
  refine Meets.bind meets_peek fun t => ?_
  split
  · exact .pure fun _ _ => List.forall_mem_cons.mpr ⟨hfirst, hrest⟩
  · exact meets_fail

/-! ## Tokens -/

/-- The number of open brackets after some tokens. -/
def depthAfter (depth : Nat) (ts : List Lexeme) : Nat :=
  ts.foldl (fun depth t => t.token.shift depth) depth

theorem tidy_snoc {depth : Nat} {ts : List Lexeme} {t : Lexeme} (h : Tidy depth ts)
    (ht : t.token.InOrder) (hd : t.token.shift (depthAfter depth ts) ≤ depthLimit) :
    Tidy depth (ts ++ [t]) := by
  induction ts generalizing depth with
  | nil => exact ⟨h, ht, hd⟩
  | cons u ts ih => exact ⟨h.1, h.2.1, ih h.2.2 hd⟩

theorem Tidy.depthAfter_le {depth : Nat} {ts : List Lexeme} (h : Tidy depth ts) :
    depthAfter depth ts ≤ depthLimit := by
  induction ts generalizing depth with
  | nil => exact h
  | cons u ts ih => exact ih h.2.2

namespace LexerState

/-- A name that is being read is one already. -/
def NameRead : Mode → Prop
  | .name _ read => IsName (String.ofList read.reverse)
  | _ => True

/-- What the lexer has read so far is tidy, and it knows how many brackets are open. -/
structure Kept (s : LexerState) : Prop where
  tidy : Tidy 0 s.lexemes.reverse
  depth : depthAfter 0 s.lexemes.reverse = s.depth
  mode : NameRead s.mode

variable {s : LexerState}

theorem Kept.depth_le (h : s.Kept) : s.depth ≤ depthLimit := h.depth ▸ h.tidy.depthAfter_le

theorem Kept.move (h : s.Kept) {columns : Int} : (s.move columns).Kept := ⟨h.tidy, h.depth, h.mode⟩

theorem Kept.newLine (h : s.Kept) : s.newLine.Kept := ⟨h.tidy, h.depth, h.mode⟩

theorem Kept.enter (h : s.Kept) {mode : Mode} (hm : NameRead mode) : (s.enter mode).Kept :=
  ⟨h.tidy, h.depth, hm⟩

theorem Kept.turn (h : s.Kept) {mode : Mode} {columns : Int} (hm : NameRead mode) :
    ((s.enter mode).move columns).Kept := (h.enter hm).move

theorem Kept.emit (h : s.Kept) (start : Position) (token : Token) (ht : token.InOrder)
    {depth : Nat} (hd : token.shift s.depth = depth) (hle : depth ≤ depthLimit) :
    (({ s with depth := depth } : LexerState).emit start token).Kept := by
  have hrev : (({ s with depth := depth } : LexerState).emit start token).lexemes.reverse =
      s.lexemes.reverse ++ [⟨token, start⟩] := List.reverse_cons
  refine ⟨?_, ?_, trivial⟩
  · rw [hrev]
    refine tidy_snoc h.tidy ht ?_
    rw [h.depth, hd]
    exact hle
  · rw [hrev, depthAfter, List.foldl_append]
    change token.shift (depthAfter 0 s.lexemes.reverse) = depth
    rw [h.depth, hd]

theorem Kept.emit_plain (h : s.Kept) (start : Position) (token : Token) (ht : token.InOrder)
    (hd : token.shift s.depth = s.depth) : (s.emit start token).Kept :=
  h.emit start token ht hd h.depth_le

theorem Kept.emitPunct (h : s.Kept) (p : Punct) : (s.emitPunct p).Kept := by
  have hle := h.depth_le
  rw [LexerState.emitPunct]
  split
  · next ho =>
    split
    · next hlt => exact (h.emit s.position (.punct p) trivial (by simp [Token.shift, ho]) hlt).move
    · exact h.enter trivial
  · next ho =>
    split
    · next hc =>
      have hd : (Token.punct p).shift s.depth = s.depth - 1 := by simp [Token.shift, ho, hc]
      exact (h.emit s.position (.punct p) trivial hd (by omega)).move
    · next hc =>
      exact (h.emit_plain s.position (.punct p) trivial (by simp [Token.shift, ho, hc])).move

theorem Kept.start (h : s.Kept) (c : Char) : (s.start c).Kept := by
  rw [LexerState.start]
  split
  · exact h.move
  split
  · exact h.move
  split
  · exact h
  split
  · exact h.newLine
  split
  · exact h.enter trivial
  split
  · exact h.turn trivial
  split
  · exact h.turn trivial
  split
  · next hc =>
    refine h.turn ?_
    exact ⟨c, [], String.toList_ofList, hc, by simp⟩
  split
  · exact h.turn trivial
  split
  · exact h.emitPunct _
  · exact h.enter trivial

theorem number?_plain {cs : List Char} {token : Token} (h : number? cs = some token) :
    token.InOrder ∧ ∀ depth, token.shift depth = depth := by
  have scaled : ∀ {front fraction : List Char} {power : Int},
      scaled? front fraction power = some token → token.InOrder ∧ ∀ depth, token.shift depth = depth := by
    intro front fraction power h
    obtain ⟨⟨_, _⟩, _, h⟩ := Option.bind_eq_some_iff.mp h
    cases h
    exact ⟨trivial, fun _ => rfl⟩
  rw [number?] at h
  split at h
  · obtain ⟨_, _, h⟩ := Option.bind_eq_some_iff.mp h
    split at h
    · obtain ⟨_, _, h⟩ := Option.bind_eq_some_iff.mp h
      exact scaled h
    · exact scaled h
  · split at h
    · obtain ⟨_, _, h⟩ := Option.bind_eq_some_iff.mp h
      exact scaled h
    · obtain ⟨⟨_, _⟩, _, h⟩ := Option.bind_eq_some_iff.mp h
      simp only [Option.ite_none_right_eq_some, Option.some.injEq] at h
      obtain ⟨hfits, rfl⟩ := h
      exact ⟨hfits, fun _ => rfl⟩

theorem Kept.emit?_number (h : s.Kept) (start : Position) (cs : List Char) :
    (s.emit? start (number? cs)).Kept := by
  cases hn : number? cs with
  | none => exact h.enter trivial
  | some token => exact h.emit_plain start token (number?_plain hn).1 ((number?_plain hn).2 _)

theorem Kept.emit_string (h : s.Kept) (start : Position) (text : String) :
    (s.emit start (.string text)).Kept := h.emit_plain start _ trivial rfl

theorem Kept.inString (h : s.Kept) (start : Position) (read : List Char) (escaped : Bool)
    (c : Char) : (s.inString start read escaped c).Kept := by
  rw [LexerState.inString]
  split
  · rw [stringToken?]
    cases unescape read.reverse with
    | none => exact h.turn trivial
    | some text => exact (h.emit_string start _).move
  split
  · exact h.enter trivial
  · exact h.turn trivial

theorem Kept.inBlock (h : s.Kept) (start : Position) (read : List Char) (quotes : Nat) (c : Char) :
    (s.inBlock start read quotes c).Kept := by
  rw [LexerState.inBlock]
  split
  · split
    · exact h.turn trivial
    · split
      · exact h.turn trivial
      · exact (h.emit_string start _).move
  · split
    · exact Kept.newLine (h.enter trivial)
    · exact h.turn trivial

theorem Kept.step (h : s.Kept) (c : Char) : (s.step c).Kept := by
  have hmode := h.mode
  rw [LexerState.step]
  split
  · exact h.start c
  · split
    · exact Kept.newLine (h.enter trivial)
    · exact h
  · next start read hm =>
    rw [hm] at hmode
    split
    · next hc =>
      refine h.turn ?_
      obtain ⟨d, ds, hd, hstart, hds⟩ := hmode
      rw [String.toList_ofList] at hd
      refine ⟨d, ds ++ [c], ?_, hstart, ?_⟩
      · rw [String.toList_ofList, List.reverse_cons, hd, List.cons_append]
      · simpa [or_imp, forall_and] using ⟨hds, hc⟩
    · exact (h.emit_plain start (.name _) hmode rfl).start c
  · next start read _ =>
    split
    · split
      · next token hn =>
        exact (h.emit_plain start token (number?_plain hn).1 ((number?_plain hn).2 _)).start c
      · exact h.enter trivial
    · exact h.turn trivial
  · next start count _ =>
    split
    · split
      · exact h.turn trivial
      · exact (h.emit_plain start (.punct .dots) trivial rfl).move
    · exact h.enter trivial
  · next start _ =>
    split
    · exact h.turn trivial
    · exact h.inString start [] false c
  · next start _ =>
    split
    · exact h.turn trivial
    · exact (h.emit_string start "").start c
  · next start read escaped _ => exact h.inString start read escaped c
  · next start read quotes _ => exact h.inBlock start read quotes c
  · exact h

theorem Kept.finish (h : s.Kept) : s.finish.Kept := by
  have hmode := h.mode
  rw [LexerState.finish]
  split
  · exact h
  · exact h
  · exact h
  · next start read hm =>
    rw [hm] at hmode
    exact h.emit_plain start (.name _) hmode rfl
  · next start read _ => exact h.emit?_number start read.reverse
  · next start _ => exact h.emit_string start ""
  all_goals exact h.enter trivial

theorem Kept.result (h : s.Kept) : Tidy 0 s.result := by
  have hf := h.finish
  have closed : ∀ (token : Token) (p : Position), token.InOrder →
      (∀ depth, token.shift depth = depth) → Tidy 0 (⟨token, p⟩ :: s.finish.lexemes).reverse := by
    intro token p ht hd
    rw [List.reverse_cons]
    refine tidy_snoc hf.tidy ht ?_
    rw [hd]
    exact hf.tidy.depthAfter_le
  rw [LexerState.result]
  split
  · exact closed .unreadable _ trivial fun _ => rfl
  · exact closed .endOfText _ trivial fun _ => rfl

end LexerState

theorem tidy_tokens (cs : List Char) : Tidy 0 (tokens cs) := by
  have kept : ∀ (cs : List Char) (s : LexerState), s.Kept → (cs.foldl LexerState.step s).Kept := by
    intro cs
    induction cs with
    | nil => exact fun s h => h
    | cons c cs ih => exact fun s h => ih _ (h.step c)
  exact (kept cs {} ⟨by simp [Tidy], rfl, trivial⟩).result

theorem proper_of_parseDocument {text : String} {ds : List Definition}
    (h : parseDocument text = .ok ds) : ∀ d ∈ ds, d.Proper := by
  rw [parseDocument, parseWith] at h
  split at h
  · next ds' rest hp =>
    cases h
    exact meets_definitionsUntilEnd (item_definition _) _ _ _ (tidy_tokens _) hp
  · cases h

/-- What the parser accepts is well formed. -/
theorem wellFormed_of_parseDocument {text : String} {ds : List Definition}
    (h : parseDocument text = .ok ds) : ∀ d ∈ ds, d.WellFormed :=
  fun d hd => (proper_of_parseDocument h d hd).wellFormed

end GraphDoc.Grammar

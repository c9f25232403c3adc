import GraphDoc.Proofs.Grammar.Parsing
import GraphDoc.Proofs.Printing
import Mathlib.Data.List.TakeWhile

/-!
# Tokens of written texts

`Yields depth cs ts` says that `cs`, read to its end with `depth` brackets open, has the tokens
`ts`. There is one lemma for each kind of token, which puts the token before a text that is read
already. A word is over when a character comes that ends numbers, so the lemmas for words ask for
one.
-/

set_option autoImplicit false

namespace GraphDoc.Grammar

/-! ## Characters -/

/-- The characters that end words. -/
def wordEnds : List Char :=
  [' ', '\n', '\r', '\t', ',', '#', '(', ')', '[', ']', '\x7b', '\x7d', '!', '$', ':', '=', '@',
    '|', '&']

theorem mem_wordEnds {c : Char} (h : endsNumber c) : c ∈ wordEnds := by
  simp only [endsNumber, Bool.or_eq_true, decide_eq_true_eq] at h
  rcases h with (((((rfl | rfl) | rfl) | rfl) | rfl) | rfl) | h
  iterate 6 decide
  unfold punct? at h
  split at h <;> first | decide | cases h

theorem isNameChar_of_endsNumber {c : Char} (h : endsNumber c) : isNameChar c = false := by
  have none : wordEnds.any isNameChar = false := by decide
  exact Bool.eq_false_iff.mpr (List.any_eq_false.mp none c (mem_wordEnds h))

theorem IsName.of_chars {s : String} {c : Char} {cs : List Char} (hs : s.toList = c :: cs)
    (hc : isNameStart c) (hcs : cs.all isNameChar) : IsName s :=
  ⟨c, cs, hs, hc, List.all_eq_true.mp hcs⟩

/-- The text is over, or goes on with a character that ends words. -/
def Ends (cs : List Char) : Prop := ∀ c rest, cs = c :: rest → endsNumber c = true

theorem Ends.nil : Ends [] := nofun

theorem Ends.cons {c : Char} (h : endsNumber c) (rest : List Char) : Ends (c :: rest) := by
  rintro _ _ ⟨⟩
  exact h

/-- The characters that start neither a word nor a punctuator. -/
def specials : List Char := [' ', ',', '\t', '\r', '\ufeff', '\n', '#', '.', '"']

namespace LexerState

variable {s : LexerState} {c : Char}

/-- The tokens that were read so far. -/
def said (s : LexerState) : List Token := s.lexemes.reverse.map (·.token)

@[simp] theorem mode_move (n : Int) : (s.move n).mode = s.mode := rfl

@[simp] theorem depth_move (n : Int) : (s.move n).depth = s.depth := rfl

@[simp] theorem said_move (n : Int) : (s.move n).said = s.said := rfl

@[simp] theorem mode_enter (mode : Mode) : (s.enter mode).mode = mode := rfl

@[simp] theorem depth_enter (mode : Mode) : (s.enter mode).depth = s.depth := rfl

@[simp] theorem said_enter (mode : Mode) : (s.enter mode).said = s.said := rfl

@[simp] theorem mode_emit (p : Position) (t : Token) : (s.emit p t).mode = .between := rfl

@[simp] theorem depth_emit (p : Position) (t : Token) : (s.emit p t).depth = s.depth := rfl

@[simp] theorem said_emit (p : Position) (t : Token) : (s.emit p t).said = s.said ++ [t] := by
  simp [said, emit]

theorem step_between (h : s.mode = .between) (c : Char) : s.step c = s.start c := by
  rw [step, h]

theorem start_of_not_special (h : c ∉ specials) : s.start c =
    if isNameStart c then (s.enter (.name s.position [c])).move 1
    else if isNumberStart c then (s.enter (.number s.position [c])).move 1
    else (punct? c).elim (s.enter (.stuck s.position)) s.emitPunct := by
  simp only [specials, List.mem_cons, List.not_mem_nil, or_false, not_or] at h
  obtain ⟨h₁, h₂, h₃, h₄, h₅, h₆, h₇, h₈, h₉⟩ := h
  simp only [start, h₁, h₂, h₃, h₄, h₅, h₆, h₇, h₈, h₉, decide_false, Bool.or_false,
    Bool.false_eq_true, if_false]
  cases punct? c <;> rfl

theorem start_name (h : isNameStart c) :
    s.start c = (s.enter (.name s.position [c])).move 1 := by
  have none : specials.any isNameStart = false := by decide
  have plain : c ∉ specials := fun hc => List.any_eq_false.mp none c hc h
  rw [start_of_not_special plain, if_pos h]

theorem start_number (h : isNumberStart c) :
    s.start c = (s.enter (.number s.position [c])).move 1 := by
  have none : specials.any isNumberStart = false := by decide
  have plain : c ∉ specials := fun hc => List.any_eq_false.mp none c hc h
  have noName : isNameStart c = false := by
    rw [isNumberStart, Bool.or_eq_true, decide_eq_true_eq] at h
    rcases h with rfl | h
    · decide
    · exact isNameStart_of_isDigit h
  rw [start_of_not_special plain, if_neg (Bool.eq_false_iff.mp noName), if_pos h]

theorem start_punct {p : Punct} (h : punct? c = some p) : s.start c = s.emitPunct p := by
  unfold punct? at h
  split at h
  case h_14 => cases h
  all_goals
    cases h
    rw [start_of_not_special (by decide), if_neg (by decide), if_neg (by decide)]
    rfl

/-- A word that may end here is the token `t`. -/
def Pends (s : LexerState) (t : Token) : Prop :=
  ∃ p, s.finish = s.emit p t ∧ ∀ c, endsNumber c = true → s.step c = (s.emit p t).start c

end LexerState

open LexerState

/-! ## Numbers -/

theorem toDigits_head {n : Nat} (h : 0 < n) (rest : List Char) :
    Nat.toDigits 10 n ≠ '0' :: rest := by
  induction n using Nat.strongRecOn generalizing rest with
  | ind n ih =>
    rw [Nat.toDigits_eq_if (by decide)]
    split
    · next small =>
      intro heq
      have digit : ∀ n < 10, 0 < n → Nat.digitChar n ≠ '0' := by decide
      exact digit n small h (List.cons.inj heq).1
    · next large =>
      have smaller := ih (n / 10) (by omega) (by omega)
      cases hd : Nat.toDigits 10 (n / 10) with
      | nil => exact absurd hd Nat.toDigits_ne_nil
      | cons c cs =>
        rw [List.cons_append]
        intro heq
        exact smaller cs (hd.trans (by rw [(List.cons.inj heq).1]))

theorem ofDigits_toDigits (n : Nat) : Whole.ofDigits (Nat.toDigits 10 n) = n :=
  Nat.ofDigitChars_toDigits (by decide) (by decide)

theorem isDigit_toDigits (n : Nat) : ∀ c ∈ Nat.toDigits 10 n, c.isDigit := fun _ hc =>
  Nat.isDigit_of_mem_toDigits (by decide) (by decide) hc

theorem whole?_toDigits (n : Nat) : whole? (Nat.toDigits 10 n) = some (false, n) ∧
    whole? ('-' :: Nat.toDigits 10 n) = some (true, n) := by
  rcases Nat.eq_zero_or_pos n with rfl | hn
  · exact ⟨rfl, rfl⟩
  have digits := isDigit_toDigits n
  have value := ofDigits_toDigits n
  have lead := toDigits_head hn
  generalize Nat.toDigits 10 n = ds at *
  have all : ds.all Char.isDigit := List.all_eq_true.mpr digits
  have sign : ∀ rest, ds ≠ '-' :: rest := by
    rintro rest rfl
    exact absurd (digits '-' List.mem_cons_self) (by decide)
  constructor
  · unfold whole?
    split
    next negative rest hsplit =>
    split at hsplit
    · exact absurd rfl (sign _)
    cases hsplit
    split
    · exact absurd value (Nat.ne_of_lt hn)
    · exact absurd rfl (lead _)
    · exact absurd rfl (lead _)
    · rw [if_pos all, value]
  · unfold whole?
    split
    next negative rest hsplit =>
    cases hsplit
    split
    · exact absurd value (Nat.ne_of_lt hn)
    · exact absurd rfl (lead _)
    · exact absurd rfl (lead _)
    · rw [if_pos all, value]

theorem splitAtLast?_eq_none {p : Char → Bool} {cs : List Char} (h : ∀ c ∈ cs, p c = false) :
    splitAtLast? p cs = none := by
  have all : cs.reverse.dropWhile (fun c => !p c) = [] :=
    List.dropWhile_eq_nil_iff.mpr fun c hc => by rw [h c (List.mem_reverse.mp hc)]; rfl
  rw [splitAtLast?, all]

theorem number?_eq_whole? {cs : List Char} (h : ∀ c ∈ cs, c.isDigit ∨ c = '-')
    {negative : Bool} {n : Nat} (hn : whole? cs = some (negative, n)) {value : Int}
    (hv : value = if negative then -(n : Int) else n) (fits : Whole.fitsSigned value) :
    number? cs = some (.int value) := by
  have none (p : Char → Bool) (digit : ∀ c, c.isDigit → p c = false) (sign : p '-' = false) :
      splitAtLast? p cs = .none := by
    refine splitAtLast?_eq_none fun c hc => ?_
    rcases h c hc with hd | rfl
    · exact digit c hd
    · exact sign
  rw [number?, none _ ?_ (by decide)]
  dsimp only
  rw [none _ ?_ (by decide)]
  dsimp only
  rw [hn]
  subst hv
  exact if_pos fits
  · rintro c hc
    refine decide_eq_false ?_
    rintro rfl
    exact absurd hc (by decide)
  · rintro c hc
    rw [Bool.or_eq_false_iff, decide_eq_false_iff_not, decide_eq_false_iff_not]
    refine ⟨?_, ?_⟩ <;> rintro rfl <;> exact absurd hc (by decide)

theorem number?_toString {n : Int} (h : Whole.fitsSigned n) :
    number? (toString n).toList = some (.int n) := by
  have chars := (toString_int_chars n).2
  cases n with
  | ofNat m =>
    have hm : (toString (Int.ofNat m)).toList = Nat.toDigits 10 m := String.toList_ofList
    rw [hm] at chars ⊢
    exact number?_eq_whole? chars (whole?_toDigits m).1 rfl h
  | negSucc m =>
    have hm : (toString (Int.negSucc m)).toList = '-' :: Nat.toDigits 10 (m + 1) :=
      String.toList_append.trans (congrArg (List.cons '-') String.toList_ofList)
    rw [hm] at chars ⊢
    exact number?_eq_whole? chars (whole?_toDigits (m + 1)).2 rfl h

/-! ## Texts and their tokens -/

/-- The text `cs`, read to its end with `depth` brackets open, has the tokens `ts`. -/
def Yields (depth : Nat) (cs : List Char) (ts : List Token) : Prop :=
  ∀ s : LexerState, s.mode = .between → s.depth = depth →
    (cs.foldl step s).result.map (·.token) = s.said ++ ts

namespace Yields

variable {depth : Nat} {cs : List Char} {ts : List Token}

theorem nil (depth : Nat) : Yields depth [] [.endOfText] := by
  intro s hm _
  rw [List.foldl_nil, result, finish, hm]
  simp only
  rw [hm]
  simp [said]

theorem blank {c : Char} (hc : c ∈ [' ', ',', '\n']) (h : Yields depth cs ts) :
    Yields depth (c :: cs) ts := by
  intro s hm hd
  rw [List.foldl_cons, step_between hm]
  simp only [List.mem_cons, List.not_mem_nil, or_false] at hc
  rcases hc with rfl | rfl | rfl
  · exact h (s.move 1) hm hd
  · exact h (s.move 1) hm hd
  · exact h s.newLine hm hd

theorem blanks {w : List Char} (hw : ∀ c ∈ w, c = ' ') (h : Yields depth cs ts) :
    Yields depth (w ++ cs) ts := by
  induction w with
  | nil => exact h
  | cons c w ih =>
    rw [List.forall_mem_cons] at hw
    exact blank (by rw [hw.1]; decide) (ih hw.2)

theorem punct {c : Char} {p : Punct} (hp : punct? c = some p)
    (room : p.isOpening → depth < depthLimit)
    (h : Yields ((Token.punct p).shift depth) cs ts) : Yields depth (c :: cs) (.punct p :: ts) := by
  intro s hm hd
  rw [List.foldl_cons, step_between hm, start_punct hp, emitPunct]
  rw [Token.shift] at h
  split
  · next opening =>
    rw [if_pos opening] at h
    rw [if_pos (hd ▸ room opening)]
    refine (h _ rfl (congrArg (· + 1) hd)).trans ?_
    simp [said, emit, move]
  · next opening =>
    rw [if_neg opening] at h
    split
    · next closing =>
      rw [if_pos closing] at h
      refine (h _ rfl (congrArg (· - 1) hd)).trans ?_
      simp [said, emit, move]
    · next closing =>
      rw [if_neg closing] at h
      refine (h ((s.emit s.position (.punct p)).move 1) rfl hd).trans ?_
      simp

theorem opens {c : Char} {p : Punct} (hp : punct? c = some p) (opening : p.isOpening)
    (room : depth < depthLimit) (h : Yields (depth + 1) cs ts) :
    Yields depth (c :: cs) (.punct p :: ts) := by
  refine punct hp (fun _ => room) ?_
  rw [Token.shift, if_pos opening]
  exact h

theorem closes {c : Char} {p : Punct} (hp : punct? c = some p)
    (closing : (!p.isOpening && p.isClosing)) (h : Yields depth cs ts) :
    Yields (depth + 1) (c :: cs) (.punct p :: ts) := by
  rw [Bool.and_eq_true, Bool.not_eq_true'] at closing
  refine punct hp (fun opening => absurd opening (Bool.eq_false_iff.mp closing.1)) ?_
  rw [Token.shift, closing.1, closing.2]
  exact h

/-- A punctuator that is no bracket. -/
theorem sign {c : Char} {p : Punct} (hp : punct? c = some p)
    (plain : (p.isOpening || p.isClosing) = false) (h : Yields depth cs ts) :
    Yields depth (c :: cs) (.punct p :: ts) := by
  rw [Bool.or_eq_false_iff] at plain
  refine punct hp (fun opening => absurd opening (Bool.eq_false_iff.mp plain.1)) ?_
  rw [Token.shift, plain.1, plain.2]
  exact h

theorem pends {s : LexerState} {t : Token} (h : Yields depth cs ts) (stop : Ends cs)
    (pends : s.Pends t) (hd : s.depth = depth) :
    (cs.foldl step s).result.map (·.token) = s.said ++ t :: ts := by
  obtain ⟨p, finished, next⟩ := pends
  have emitted : (cs.foldl step s).result = (cs.foldl step (s.emit p t)).result := by
    cases cs with
    | nil =>
      rw [List.foldl_nil, List.foldl_nil, result, result, finished]
      rfl
    | cons c cs => rw [List.foldl_cons, List.foldl_cons, next c (stop c cs rfl), step_between rfl]
  rw [emitted, h (s.emit p t) rfl hd, said_emit, List.append_assoc]
  rfl

section

variable {m : Position → List Char → Mode} {q : Char → Bool}

theorem run_word (more : ∀ (s : LexerState) p read c, s.mode = m p read → q c →
      s.step c = (s.enter (m p (c :: read))).move 1) {p : Position} (w : List Char)
    (hw : ∀ c ∈ w, q c) {s : LexerState} {read : List Char} (hm : s.mode = m p read) :
    (w.foldl step s).mode = m p (w.reverse ++ read) ∧ (w.foldl step s).depth = s.depth ∧
      (w.foldl step s).said = s.said := by
  induction w generalizing s read with
  | nil => exact ⟨hm, rfl, rfl⟩
  | cons c w ih =>
    rw [List.forall_mem_cons] at hw
    rw [List.foldl_cons, more s p read c hm hw.1, List.reverse_cons, List.append_assoc]
    exact ih hw.2 rfl

theorem word {c : Char} {w : List Char} {t : Token}
    (first : ∀ s : LexerState, s.start c = (s.enter (m s.position [c])).move 1)
    (more : ∀ (s : LexerState) p read c, s.mode = m p read → q c →
      s.step c = (s.enter (m p (c :: read))).move 1)
    (hw : ∀ c ∈ w, q c)
    (last : ∀ (s : LexerState) p read, read.reverse = c :: w → s.mode = m p read → s.Pends t)
    (stop : Ends cs)
    (h : Yields depth cs ts) : Yields depth (c :: w ++ cs) (t :: ts) := by
  intro s hm hd
  rw [List.cons_append, List.foldl_cons, step_between hm, first, List.foldl_append]
  have run := run_word more w hw (s := (s.enter (m s.position [c])).move 1) rfl
  have whole : (w.reverse ++ [c]).reverse = c :: w := by simp
  rw [pends h stop (last _ _ _ whole run.1) (run.2.1.trans hd), run.2.2]
  rfl

end

theorem name {n : String} (hn : IsName n) (stop : Ends cs) (h : Yields depth cs ts) :
    Yields depth (n.toList ++ cs) (.name n :: ts) := by
  obtain ⟨c, w, hw, hc, hchars⟩ := hn
  rw [hw]
  refine word (m := .name) (fun s => start_name hc) (fun s p read c hm hc => ?_) hchars
    (fun s p read hread hm => ?_) stop h
  · rw [step, hm]
    exact if_pos hc
  · have text : String.ofList read.reverse = n := by rw [hread, ← hw, String.ofList_toList]
    refine ⟨p, by rw [finish, hm, ← text], fun c hc => ?_⟩
    rw [step, hm, ← text]
    exact if_neg (Bool.eq_false_iff.mp (isNameChar_of_endsNumber hc))

theorem number {c : Char} {w : List Char} {t : Token} (hc : isNumberStart c)
    (hw : ∀ c ∈ w, endsNumber c = false) (ht : number? (c :: w) = some t) (stop : Ends cs)
    (h : Yields depth cs ts) : Yields depth (c :: w ++ cs) (t :: ts) := by
  refine word (m := .number) (q := fun c => !endsNumber c) (fun s => start_number hc)
    (fun s p read c hm hc => ?_) (fun c hc => by rw [hw c hc]; rfl)
    (fun s p read hread hm => ?_) stop h
  · rw [step, hm]
    exact if_neg (by simpa using hc)
  · rw [← hread] at ht
    refine ⟨p, by rw [finish, hm]; dsimp only; rw [ht, emit?], fun c hc => ?_⟩
    rw [step, hm]
    dsimp only
    rw [if_pos hc, ht]

theorem int {n : Int} (hn : Whole.fitsSigned n) (stop : Ends cs) (h : Yields depth cs ts) :
    Yields depth ((toString n).toList ++ cs) (.int n :: ts) := by
  have hnumber := number?_toString hn
  obtain ⟨full, chars⟩ := toString_int_chars n
  cases htext : (toString n).toList with
  | nil => exact absurd htext full
  | cons c w =>
    rw [htext] at hnumber chars
    have ends : ∀ c, c.isDigit ∨ c = '-' → endsNumber c = false := by
      rintro c (hc | rfl)
      · refine Bool.eq_false_iff.mpr fun he => ?_
        have none : wordEnds.any Char.isDigit = false := by decide
        exact List.any_eq_false.mp none c (mem_wordEnds he) hc
      · decide
    rw [List.forall_mem_cons] at chars
    refine number ?_ (fun c hc => ends c (chars.2 c hc)) hnumber stop h
    rcases chars.1 with hc | rfl
    · rw [isNumberStart, hc, Bool.or_true]
    · decide

theorem dots (h : Yields depth cs ts) :
    Yields depth ('.' :: '.' :: '.' :: cs) (.punct .dots :: ts) := by
  intro s hm hd
  have three : ((s.step '.').step '.').step '.' = (((((s.enter (.dots s.position 1)).move 1).enter
      (.dots s.position 2)).move 1).emit s.position (.punct .dots)).move 1 := by
    rw [step_between hm]
    rfl
  rw [List.foldl_cons, List.foldl_cons, List.foldl_cons,
    h _ (by rw [three]; rfl) (by rw [three]; exact hd), three]
  simp

end Yields

/-! ## Strings -/

/-- Read inside a string, `w` is collected as it stands. -/
def Collected (w : List Char) : Prop :=
  ∀ (s : LexerState) (p : Position) (read : List Char), s.mode = .string p read false →
    (w.foldl step s).mode = .string p (w.reverse ++ read) false ∧
      (w.foldl step s).depth = s.depth ∧ (w.foldl step s).said = s.said

/-- Neither the end of a string nor the start of an escape. -/
def isPlain (c : Char) : Bool := c ≠ '"' && c ≠ '\\' && c ≠ '\n'

theorem collected_plain {w : List Char} (hw : ∀ c ∈ w, isPlain c) : Collected w := by
  intro s p read hm
  refine Yields.run_word (m := fun p read => .string p read false) ?_ w hw hm
  intro s p read c hm hc
  simp only [isPlain, ne_eq, decide_not, Bool.and_eq_true, Bool.not_eq_true',
    decide_eq_false_iff_not] at hc
  rw [step, hm]
  simp [inString, hc]

theorem Collected.append {v w : List Char} (hv : Collected v) (hw : Collected w) :
    Collected (v ++ w) := by
  intro s p read hm
  obtain ⟨mode, depth, said⟩ := hv s p read hm
  obtain ⟨mode', depth', said'⟩ := hw _ p _ mode
  rw [List.foldl_append, List.reverse_append, List.append_assoc]
  exact ⟨mode', depth'.trans depth, said'.trans said⟩

theorem collected_escape {c : Char} (hc : c ≠ '\n') {w : List Char}
    (hw : ∀ c ∈ w, isPlain c) : Collected ('\\' :: c :: w) := by
  intro s p read hm
  have two : (s.step '\\').step c =
      (((s.enter (.string p ('\\' :: read) true)).move 1).enter
        (.string p (c :: '\\' :: read) false)).move 1 := by
    have first : s.step '\\' = (s.enter (.string p ('\\' :: read) true)).move 1 := by
      rw [step, hm]
      rfl
    rw [first, step, mode_move, mode_enter]
    simp [inString, hc]
  rw [List.foldl_cons, List.foldl_cons, two, List.reverse_cons, List.reverse_cons,
    List.append_assoc, List.append_assoc]
  exact collected_plain hw _ p _ rfl

theorem isPlain_hexDigit : ∀ n < 16, isPlain (Json.hexDigit n) = true := by decide

theorem collected_char (c : Char) : Collected (Json.escape c) := by
  fun_cases Json.escape c with
  | case8 _ _ _ _ _ _ _ hlt =>
    refine collected_escape (by decide) ?_
    simp only [List.forall_mem_cons, List.not_mem_nil, false_implies, implies_true, and_true]
    exact ⟨rfl, rfl, isPlain_hexDigit _ (by omega), isPlain_hexDigit _ (by omega)⟩
  | case9 hquote hslash _ _ hline _ _ _ =>
    refine collected_plain fun d hd => ?_
    obtain rfl := List.mem_singleton.mp hd
    have hline : d ≠ '\n' := by
      rintro rfl
      exact hline rfl
    simp [isPlain, hquote, hslash, hline]
  | _ => exact collected_escape (by decide) (List.forall_mem_nil _)

theorem collected_chars (cs : List Char) : Collected (cs.flatMap Json.escape) := by
  induction cs with
  | nil => exact fun s p read hm => ⟨hm, rfl, rfl⟩
  | cons c cs ih => exact (collected_char c).append ih

theorem hexValue?_hexDigit : ∀ n < 16, Text.hexValue? (Json.hexDigit n) = some n := by decide

theorem escapedChar?_hexDigit {c : Char} (hc : c.toNat < 32) :
    escapedChar? '0' '0' (Json.hexDigit (c.toNat / 16)) (Json.hexDigit (c.toNat % 16)) =
      some c := by
  have code : Json.hexQuad? '0' '0' (Json.hexDigit (c.toNat / 16))
      (Json.hexDigit (c.toNat % 16)) = some c.toNat := by
    rw [Json.hexQuad?, hexValue?_hexDigit _ (by omega), hexValue?_hexDigit _ (by omega)]
    have whole : ((0 * 16 + 0) * 16 + c.toNat / 16) * 16 + c.toNat % 16 = c.toNat := by omega
    exact congrArg some whole
  rw [escapedChar?, if_neg (by decide), code]
  simp only [Option.bind_eq_bind, Option.bind_some]
  rw [if_neg (by simp; omega), Char.ofNat_toNat]

/-- An escaped character is read back, but for U+0008, whose escape stands for U+0010. -/
theorem unescape_escape {c : Char} (hc : c.toNat ≠ 8) (r : List Char) :
    unescape (Json.escape c ++ r) = (unescape r).map (c :: ·) := by
  have spelt : ∀ {n}, c.toNat = n → c = Char.ofNat n := by
    rintro _ rfl
    exact (Char.ofNat_toNat c).symm
  rw [Option.map_eq_bind]
  fun_cases Json.escape c with
  | case1 h => subst h; simp only [List.cons_append, unescape]; rfl
  | case2 _ h => subst h; simp only [List.cons_append, unescape]; rfl
  | case3 _ _ h => exact absurd h hc
  | case4 _ _ _ h => rw [spelt h]; simp only [List.cons_append, unescape]; rfl
  | case5 _ _ _ _ h => rw [spelt h]; simp only [List.cons_append, unescape]; rfl
  | case6 _ _ _ _ _ h => rw [spelt h]; simp only [List.cons_append, unescape]; rfl
  | case7 _ _ _ _ _ _ h => rw [spelt h]; simp only [List.cons_append, unescape]; rfl
  | case8 _ _ _ _ _ _ _ hlt =>
    simp only [List.cons_append, unescape, escapedChar?_hexDigit hlt]
    rfl
  | case9 _ hslash => simp [unescape, hslash, Option.map_eq_bind]

theorem unescape_escapes {cs : List Char} (h : ∀ c ∈ cs, c.toNat ≠ 8) :
    unescape (cs.flatMap Json.escape) = some cs := by
  induction cs with
  | nil => rfl
  | cons c cs ih =>
    rw [List.forall_mem_cons] at h
    rw [List.flatMap_cons, unescape_escape h.1, ih h.2]
    rfl

theorem escapes_ne_quote (cs w : List Char) : cs.flatMap Json.escape ≠ '"' :: w := by
  cases cs with
  | nil => exact (List.cons_ne_nil '"' w).symm
  | cons c cs =>
    rw [List.flatMap_cons]
    fun_cases Json.escape c with
    | case9 hquote => exact fun heq => hquote (List.cons.inj heq).1
    | _ => exact fun heq => absurd (List.cons.inj heq).1 (by decide)

theorem foldl_quote {s : LexerState} {p : Position} (hm : s.mode = .quote p) {c : Char}
    (hc : c ≠ '"') (w : List Char) :
    (c :: w).foldl step s = (c :: w).foldl step (s.enter (.string p [] false)) := by
  have first : s.step c = (s.enter (.string p [] false)).step c := by
    rw [step, step, hm, mode_enter]
    simp only [hc, if_false, inString, decide_false, Bool.false_and, Bool.false_eq_true]
    split <;> rfl
  rw [List.foldl_cons, List.foldl_cons, first]

theorem step_closing_quote {s : LexerState} {p : Position} {read : List Char} {text : String}
    (hm : s.mode = .string p read false) (ht : unescape read.reverse = some text.toList) :
    s.step '"' = (s.emit p (.string text)).move 1 := by
  have token : stringToken? read = some (.string text) := by
    rw [stringToken?, ht, Option.map_some, String.ofList_toList]
  rw [step, hm]
  dsimp only
  rw [inString, if_pos (by decide), token, emit?]

/-- A quoted text without U+0008 is the token of the text. -/
theorem Yields.string {text : String} (clear : ∀ c ∈ text.toList, c.toNat ≠ 8) {depth : Nat}
    {cs : List Char} {ts : List Token} (stop : Ends cs) (h : Yields depth cs ts) :
    Yields depth (Json.quoteChars text.toList ++ cs) (.string text :: ts) := by
  intro s hm hd
  have opened : s.step '"' = (s.enter (.quote s.position)).move 1 := by
    rw [step_between hm]
    rfl
  have collected := collected_chars text.toList
  have read := unescape_escapes clear
  rw [Json.quoteChars, List.cons_append, List.foldl_cons, opened, List.append_assoc,
    List.foldl_append, List.singleton_append, List.foldl_cons]
  cases hescaped : text.toList.flatMap Json.escape with
  | nil =>
    -- Two quotes are a string unless a third one follows.
    rw [hescaped] at read
    obtain rfl : text = "" := String.toList_inj.mp (Option.some.inj read).symm
    refine pends h stop (s := ((((s.enter (.quote s.position)).move 1).enter
      (.quotes s.position)).move 1)) ⟨s.position, rfl, fun c hc => if_neg ?_⟩ hd
    rintro rfl
    exact absurd hc (by decide)
  | cons c w =>
    have hc : c ≠ '"' := fun heq => escapes_ne_quote _ w (heq ▸ hescaped)
    rw [hescaped] at collected read
    obtain ⟨mode, depth, said⟩ := collected
      (((s.enter (.quote s.position)).move 1).enter (.string s.position [] false)) _ _ rfl
    rw [foldl_quote rfl hc]
    generalize (c :: w).foldl step _ = inside at mode depth said ⊢
    rw [step_closing_quote mode (by simpa using read),
      h ((inside.emit s.position (.string text)).move 1) rfl (depth.trans hd), said_move, said_emit,
      said, List.append_assoc]
    rfl

end GraphDoc.Grammar

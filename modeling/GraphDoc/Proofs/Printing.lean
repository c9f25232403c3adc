import GraphDoc.Proofs.Grammar.WellFormed
import GraphDoc.Proofs.Quoting

/-!
# Printed values

A printed value ends where it ends, unless something follows that belongs to a word. So values that
print alike are equal, but for floats that are written like names: an infinite one prints as the
enum value `inf` does. The text of a value is what it prints as, without the quotes of a string and
the sign of a variable; `Value.Confusable` says when it can be that of another value.
-/

set_option autoImplicit false

namespace GraphDoc

open Grammar

/-! ## Words -/

def isWordChar (c : Char) : Bool := isNameChar c || c = '-' || c = '.'

/-- What follows does not go on with a word. -/
def Stops (r : List Char) : Prop := ∀ c cs, r = c :: cs → isWordChar c = false

theorem Stops.nil : Stops [] := nofun

theorem Stops.cons {c : Char} (h : isWordChar c = false) (cs : List Char) : Stops (c :: cs) := by
  rintro _ _ ⟨⟩
  exact h

theorem word_append_inj {a b r r' : List Char} (ha : ∀ c ∈ a, isWordChar c)
    (hb : ∀ c ∈ b, isWordChar c) (hr : Stops r) (hr' : Stops r')
    (h : a ++ r = b ++ r') : a = b ∧ r = r' := by
  induction a generalizing b with
  | nil =>
    cases b with
    | nil => exact ⟨rfl, h⟩
    | cons d b => exact absurd (hb d List.mem_cons_self) (by rw [hr d _ h]; nofun)
  | cons c a ih =>
    cases b with
    | nil => exact absurd (ha c List.mem_cons_self) (by rw [hr' c _ h.symm]; nofun)
    | cons d b =>
      obtain ⟨rfl, hrest⟩ := List.cons.inj h
      obtain ⟨rfl, same⟩ := ih (fun c hc => ha c (List.mem_cons_of_mem _ hc))
        (fun c hc => hb c (List.mem_cons_of_mem _ hc)) hrest
      exact ⟨rfl, same⟩

theorem isWordChar_of_isDigit {c : Char} (h : c.isDigit) : isWordChar c := by
  simp [isWordChar, isNameChar, Char.isAlphanum, h]

theorem Grammar.IsName.isWordChar {s : String} (h : IsName s) : ∀ c ∈ s.toList, isWordChar c := by
  obtain ⟨c, cs, hs, hc, hcs⟩ := h
  rw [hs]
  refine List.forall_mem_cons.mpr ⟨?_, fun d hd => ?_⟩
  · simp only [isNameStart, Bool.or_eq_true] at hc
    rcases hc with hc | hc <;> simp [GraphDoc.isWordChar, isNameChar, Char.isAlphanum, hc]
  · simp [GraphDoc.isWordChar, hcs d hd]

theorem isNameStart_of_isDigit {c : Char} (h : c.isDigit) : isNameStart c = false := by
  have hc : c ≠ '_' := by
    rintro rfl
    cases h
  change (c.val ≥ '0'.val && c.val ≤ '9'.val) = true at h
  change (decide (c.val ≥ 'A'.val ∧ c.val ≤ 'Z'.val) || (c.val ≥ 'a'.val && c.val ≤ 'z'.val) ||
    decide (c = '_')) = false
  grind

/-- A whole number is written in digits, perhaps with a sign. -/
theorem toString_int_chars (n : Int) : (toString n).toList ≠ [] ∧
    ∀ c ∈ (toString n).toList, c.isDigit ∨ c = '-' := by
  have digits : ∀ m, ∀ c ∈ (Nat.toDigits 10 m), c.isDigit := fun m c hc =>
    Nat.isDigit_of_mem_toDigits (by decide) (by decide) hc
  cases n with
  | ofNat m =>
    change (String.ofList (Nat.toDigits 10 m)).toList ≠ [] ∧
      ∀ c ∈ (String.ofList (Nat.toDigits 10 m)).toList, _
    rw [String.toList_ofList]
    exact ⟨Nat.toDigits_ne_nil, fun c hc => .inl (digits m c hc)⟩
  | negSucc m =>
    have hm : (toString (Int.negSucc m)).toList = '-' :: Nat.toDigits 10 (m + 1) :=
      String.toList_append.trans (congrArg (List.cons '-') String.toList_ofList)
    rw [hm]
    exact ⟨nofun, List.forall_mem_cons.mpr ⟨.inr rfl, fun c hc => .inl (digits _ c hc)⟩⟩

namespace Binary64

theorem search_digits (m : Nat) (q place : Int) (tries count : Nat) :
    ∀ c ∈ (search m q place tries count).digits, c.isDigit := by
  induction tries generalizing count with
  | zero => exact nofun
  | succ tries ih =>
    rw [search]
    split
    · intro c hc
      have hc := (List.dropWhile_sublist _).mem (List.mem_reverse.mp hc)
      exact Nat.isDigit_of_mem_toDigits (by decide) (by decide) (List.mem_reverse.mp hc)
    · exact ih (count + 1)

theorem positional_chars {d : Decimal} (hd : ∀ c ∈ d.digits, c.isDigit) :
    (∀ c ∈ positional d, c.isDigit ∨ c = '.') ∧ '.' ∈ positional d := by
  have zeros_digits : ∀ n, ∀ c ∈ zeros n, c.isDigit := fun n c hc => by
    rw [List.eq_of_mem_replicate hc]
    rfl
  rw [positional]
  split
  · refine ⟨?_, by simp⟩
    simp only [List.forall_mem_cons, List.forall_mem_append]
    exact ⟨.inl rfl, .inr trivial, fun c hc => .inl (zeros_digits _ c hc), fun c hc => .inl (hd c hc)⟩
  · refine ⟨?_, by simp⟩
    simp only [List.forall_mem_cons, List.forall_mem_append]
    refine ⟨⟨fun c hc => .inl (hd c (List.mem_of_mem_take hc)),
      fun c hc => .inl (zeros_digits _ c hc)⟩, .inr trivial, ?_⟩
    split
    · exact List.forall_mem_singleton.mpr (.inl rfl)
    · exact fun c hc => .inl (hd c (List.mem_of_mem_drop hc))

theorem scientific_chars {d : Decimal} (hd : ∀ c ∈ d.digits, c.isDigit) :
    (∀ c ∈ scientific d, isWordChar c) ∧ 'e' ∈ scientific d := by
  rw [scientific]
  refine ⟨?_, by simp⟩
  simp only [List.forall_mem_cons, List.forall_mem_append]
  refine ⟨⟨fun c hc => isWordChar_of_isDigit (hd c (List.mem_of_mem_take hc)), ?_⟩, by decide,
    fun c hc => ?_⟩
  · split
    · exact nofun
    · refine List.forall_mem_cons.mpr ⟨by decide, fun c hc => ?_⟩
      exact isWordChar_of_isDigit (hd c (List.mem_of_mem_drop hc))
  · rcases (toString_int_chars _).2 c hc with hc | rfl
    · exact isWordChar_of_isDigit hc
    · decide

theorem magnitudeText_chars (m : Nat) (q : Int) :
    (∀ c ∈ magnitudeText m q, isWordChar c) ∧
      ('.' ∈ magnitudeText m q ∨ 'e' ∈ magnitudeText m q) := by
  have hd := search_digits m q (leadingPlace m q) 17 1
  rw [magnitudeText]
  split
  · exact ⟨List.all_eq_true.mp (by decide), by decide⟩
  · dsimp only
    split
    · obtain ⟨chars, point⟩ := positional_chars hd
      refine ⟨fun c hc => ?_, .inl point⟩
      rcases chars c hc with hc | rfl
      · exact isWordChar_of_isDigit hc
      · decide
    · exact ⟨(scientific_chars hd).1, .inr (scientific_chars hd).2⟩

theorem text_chars (x : Binary64) : (∀ c ∈ x.text.toList, isWordChar c) ∧
    ∃ c ∈ x.text.toList, c.isDigit = false ∧ c ≠ '-' := by
  cases x with
  | finite negative m q =>
    obtain ⟨chars, mark⟩ := magnitudeText_chars m q
    have sign : ∀ c ∈ (if negative then ['-'] else []), isWordChar c := by
      cases negative <;> exact List.all_eq_true.mp (by decide)
    rw [text, String.toList_ofList]
    refine ⟨List.forall_mem_append.mpr ⟨sign, chars⟩, ?_⟩
    rcases mark with mark | mark
    · exact ⟨'.', List.mem_append_right _ mark, by decide⟩
    · exact ⟨'e', List.mem_append_right _ mark, by decide⟩
  | infinite negative =>
    cases negative <;> exact ⟨List.all_eq_true.mp (by decide), 'f', by decide⟩

end Binary64

/-- Whether a text starts like a name. -/
def startsName (s : String) : Bool := s.toList.head?.any isNameStart

/-- The kind of an unquoted word. -/
def wordKind (s : String) : ValueKind :=
  if s = "null" then .null
  else if s = "true" || s = "false" then .boolean
  else if startsName s then .enum
  else if s.toList.all fun c => c.isDigit || c = '-' then .int
  else .float

theorem wordKind_of_number {s : String} (h : startsName s = false) :
    wordKind s = if s.toList.all fun c => c.isDigit || c = '-' then .int else .float := by
  have other : ∀ w, startsName w → s ≠ w := by
    rintro w hw rfl
    rw [h] at hw
    cases hw
  rw [wordKind, if_neg (other "null" (by decide)), if_neg, h]
  · rfl
  · simp [other "true" (by decide), other "false" (by decide)]

theorem Grammar.IsName.startsName {s : String} (h : IsName s) : startsName s := by
  obtain ⟨c, cs, hs, hc, _⟩ := h
  rw [GraphDoc.startsName, hs]
  exact hc

namespace Value

mutual

/-- Whether a value is, or has in it, a float that is written like a name. -/
def hasNamedFloat : Value → Bool
  | node kind raw children => (kind = .float && startsName raw) || haveNamedFloat children

def haveNamedFloat : List (Option String × Value) → Bool
  | [] => false
  | (_, v) :: rest => v.hasNamedFloat || haveNamedFloat rest

end

theorem haveNamedFloat_eq_false {children : List (Option String × Value)} :
    haveNamedFloat children = false ↔ ∀ c ∈ children, c.2.hasNamedFloat = false := by
  induction children with
  | nil => simp [haveNamedFloat]
  | cons c children ih => simp [haveNamedFloat, ih]

/-- Values as they are loaded, without floats that are written like names. -/
inductive Readable : Value → Prop where
  | var {name : String} (h : IsName name) : Readable (leaf .var name)
  | string (text : String) : Readable (leaf .string text)
  | word {raw : String} (chars : ∀ c ∈ raw.toList, isWordChar c = true) (hne : raw.toList ≠ []) :
      Readable (leaf (wordKind raw) raw)
  | list {children : List (Option String × Value)} (hn : ∀ c ∈ children, c.1 = none)
      (h : ∀ c ∈ children, c.2.Readable) : Readable (composite .list children)
  | object {children : List (Option String × Value)}
      (hn : ∀ c ∈ children, ∃ name, c.1 = some name ∧ IsName name)
      (h : ∀ c ∈ children, c.2.Readable) : Readable (composite .object children)

theorem Readable.of_word {kind : ValueKind} {raw : String}
    (chars : ∀ c ∈ raw.toList, isWordChar c) (hne : raw.toList ≠ [])
    (hk : wordKind raw = kind) : Readable (leaf kind raw) := hk ▸ .word chars hne

theorem readable_int (n : Int) : Readable (leaf .int (toString n)) := by
  obtain ⟨hne, chars⟩ := toString_int_chars n
  have digits : (toString n).toList.all (fun c => c.isDigit || c = '-') :=
    List.all_eq_true.mpr fun c hc => by simpa using chars c hc
  have number : startsName (toString n) = false := by
    obtain ⟨c, cs, hcs⟩ := List.exists_cons_of_ne_nil hne
    rw [startsName, hcs]
    rcases chars c (hcs ▸ List.mem_cons_self) with hc | rfl
    · exact isNameStart_of_isDigit hc
    · rfl
  refine .of_word (fun c hc => ?_) hne (by rw [wordKind_of_number number, if_pos digits])
  rcases chars c hc with hc | rfl
  · exact isWordChar_of_isDigit hc
  · decide

theorem readable_float {x : Binary64} (plain : startsName x.text = false) :
    Readable (leaf .float x.text) := by
  obtain ⟨chars, c, hc, hdigit, hsign⟩ := x.text_chars
  have mixed : x.text.toList.all (fun c => c.isDigit || c = '-') = false :=
    List.all_eq_false.mpr ⟨c, hc, by simp [hdigit, hsign]⟩
  refine .of_word chars (List.ne_nil_of_mem hc) ?_
  rw [wordKind_of_number plain, mixed]
  rfl

theorem readable_enum {name : String} (h : IsName name) (hw : name ∉ ["true", "false", "null"]) :
    Readable (leaf .enum name) := by
  obtain ⟨c, cs, hs, _⟩ := id h
  refine .of_word h.isWordChar (by rw [hs]; nofun) ?_
  simp only [List.mem_cons, List.not_mem_nil, or_false, not_or] at hw
  simp [wordKind, hw, h.startsName]

theorem Written.readable {v : Value} (h : v.Written) (plain : v.hasNamedFloat = false) :
    v.Readable := by
  obtain ⟨l, hl, rfl⟩ := h
  induction hl with
  | var h => exact .var h
  | int n => exact readable_int n
  | float x =>
    refine readable_float ?_
    simpa [Literal.toValue, leaf, hasNamedFloat, haveNamedFloat] using plain
  | string text => exact .string text
  | boolean b =>
    cases b <;> exact .of_word (List.all_eq_true.mp (by decide)) (by decide) (by decide)
  | null => exact .of_word (List.all_eq_true.mp (by decide)) (by decide) (by decide)
  | enum h hw => exact readable_enum h hw
  | list _ ih =>
    rw [Literal.toValue, composite, hasNamedFloat, Bool.or_eq_false_iff,
      haveNamedFloat_eq_false] at plain
    rw [Literal.toValue]
    refine .list (fun c hc => ?_) fun c hc => ?_ <;>
      obtain ⟨l, hl, rfl⟩ := Literal.mem_itemValues.mp hc
    · rfl
    · exact ih l hl (plain.2 _ hc)
  | object hn _ ih =>
    rw [Literal.toValue, composite, hasNamedFloat, Bool.or_eq_false_iff,
      haveNamedFloat_eq_false] at plain
    rw [Literal.toValue]
    refine .object (fun c hc => ?_) fun c hc => ?_ <;>
      obtain ⟨f, hf, rfl⟩ := Literal.mem_fieldValues.mp hc
    · exact ⟨f.1, rfl, hn f hf⟩
    · exact ih f hf (plain.2 _ hc)

/-! ## Printing -/

/-- The text that a value prints as. -/
def chars (v : Value) : List Char := v.print.toList

def label : Option String → List Char
  | none => []
  | some name => name.toList ++ [':', ' ']

/-- A child as it is printed. -/
def entry (c : Option String × Value) : List Char := label c.1 ++ c.2.chars

def more : List (Option String × Value) → List Char
  | [] => []
  | c :: cs => ',' :: ' ' :: (entry c ++ more cs)

def entries : List (Option String × Value) → List Char
  | [] => []
  | c :: cs => entry c ++ more cs

theorem printItems_chars {children : List (Option String × Value)}
    (hn : ∀ c ∈ children, c.1 = none) : (printItems children).toList = entries children := by
  induction children with
  | nil => rfl
  | cons c cs ih =>
    obtain ⟨name?, v⟩ := c
    obtain rfl : name? = none := hn _ List.mem_cons_self
    have ih := ih fun c hc => hn c (List.mem_cons_of_mem _ hc)
    cases cs with
    | nil => simp [printItems, entries, more, entry, label, chars]
    | cons d ds => simp [printItems, ih, entries, more, entry, label, chars]

theorem printFields_chars {children : List (Option String × Value)}
    (hn : ∀ c ∈ children, ∃ name, c.1 = some name ∧ IsName name) :
    (printFields children).toList = entries children := by
  induction children with
  | nil => rfl
  | cons c cs ih =>
    obtain ⟨name?, v⟩ := c
    obtain ⟨name, hname, _⟩ := hn _ List.mem_cons_self
    obtain rfl : name? = some name := hname
    have ih := ih fun c hc => hn c (List.mem_cons_of_mem _ hc)
    cases cs with
    | nil => simp [printFields, entries, more, entry, label, chars]
    | cons d ds => simp [printFields, ih, entries, more, entry, label, chars]

theorem chars_list {children : List (Option String × Value)} (hn : ∀ c ∈ children, c.1 = none) :
    (composite .list children).chars = '[' :: (entries children ++ [']']) := by
  rw [chars, composite, print]
  simp [printItems_chars hn]

theorem chars_object {children : List (Option String × Value)}
    (hn : ∀ c ∈ children, ∃ name, c.1 = some name ∧ IsName name) :
    (composite .object children).chars = '\x7b' :: (entries children ++ ['\x7d']) := by
  rw [chars, composite, print]
  simp [printFields_chars hn]

/-- What a printed value starts with, if a value can start so. -/
inductive Opening where
  | dollar | quote | bracket | brace | word | none
deriving DecidableEq

def opening (c : Char) : Opening :=
  if c = '$' then .dollar else if c = '"' then .quote else if c = '[' then .bracket
  else if c = '\x7b' then .brace else if isWordChar c then .word else .none

theorem opening_of_isWordChar {c : Char} (h : isWordChar c) : opening c = .word := by
  have other : ∀ d, isWordChar d = false → c ≠ d := by
    rintro d hd rfl
    rw [h] at hd
    cases hd
  rw [opening, if_neg (other '$' (by decide)), if_neg (other '"' (by decide)),
    if_neg (other '[' (by decide)), if_neg (other '\x7b' (by decide)), if_pos h]

def kindOpening : ValueKind → Opening
  | .var => .dollar
  | .string | .block => .quote
  | .list => .bracket
  | .object => .brace
  | _ => .word

theorem kindOpening_wordKind (raw : String) : kindOpening (wordKind raw) = .word := by
  rw [wordKind]
  split_ifs <;> rfl

theorem chars_word {kind : ValueKind} (hk : kindOpening kind = .word) (raw : String) :
    (leaf kind raw).chars = raw.toList := by
  cases kind with
  | var | string | block | list | object => cases hk
  | int | float | boolean | null | enum => rfl

theorem chars_var (name : String) : (leaf .var name).chars = '$' :: name.toList := by
  simp [chars, leaf, print]

theorem chars_string (text : String) : (leaf .string text).chars = Json.quoteChars text.toList := by
  simp [chars, leaf, print, Json.quote]

theorem Readable.exists_chars {v : Value} (h : v.Readable) :
    ∃ c cs, v.chars = c :: cs ∧ opening c = kindOpening v.kind := by
  cases h with
  | var h => exact ⟨'$', _, chars_var _, rfl⟩
  | string text => exact ⟨'"', _, chars_string text, rfl⟩
  | @word raw chars hne =>
    obtain ⟨c, cs, hcs⟩ := List.exists_cons_of_ne_nil hne
    refine ⟨c, cs, (chars_word (kindOpening_wordKind raw) raw).trans hcs, ?_⟩
    rw [opening_of_isWordChar (chars c (hcs ▸ List.mem_cons_self))]
    exact (kindOpening_wordKind raw).symm
  | list hn _ => exact ⟨'[', _, chars_list hn, rfl⟩
  | object hn _ => exact ⟨'\x7b', _, chars_object hn, rfl⟩

/-- A value can be told from all others, whatever follows them. -/
def Distinct (v : Value) : Prop := ∀ w r r', w.Readable → Stops r → Stops r' →
  v.chars ++ r = w.chars ++ r' → v = w ∧ r = r'

/-- The children of a list are nameless, those of an object have names. -/
def Labels (named : Bool) (children : List (Option String × Value)) : Prop :=
  ∀ c ∈ children, c.1.isSome = named ∧ ∀ name, c.1 = some name → IsName name

theorem entry_append_inj {named : Bool} {c d : Option String × Value} {r r' : List Char}
    (hc : c.1.isSome = named ∧ ∀ name, c.1 = some name → IsName name)
    (hd : d.1.isSome = named ∧ ∀ name, d.1 = some name → IsName name) (hv : c.2.Distinct)
    (hw : d.2.Readable) (hr : Stops r) (hr' : Stops r') (h : entry c ++ r = entry d ++ r') :
    c = d ∧ r = r' := by
  obtain ⟨name?, v⟩ := c
  obtain ⟨name?', w⟩ := d
  cases name? with
  | none =>
    cases name?' with
    | some _ => cases hc.1.trans hd.1.symm
    | none =>
      obtain ⟨rfl, hrest⟩ := hv w r r' hw hr hr' h
      exact ⟨rfl, hrest⟩
  | some name =>
    cases name?' with
    | none => cases hc.1.trans hd.1.symm
    | some name' =>
      simp only [entry, label, List.append_assoc, List.cons_append, List.nil_append] at h
      obtain ⟨hname, h⟩ := word_append_inj (hc.2 name rfl).isWordChar (hd.2 name' rfl).isWordChar
        (.cons (by decide) _) (.cons (by decide) _) h
      obtain ⟨rfl, hrest⟩ := hv w r r' hw hr hr' (List.cons.inj (List.cons.inj h).2).2
      rw [String.toList_inj.mp hname]
      exact ⟨rfl, hrest⟩

section

variable {named : Bool} {close : Char} (hclose : close = ']' ∨ close = '\x7d')
include hclose

theorem stops_more (cs : List (Option String × Value)) (r : List Char) :
    Stops (more cs ++ close :: r) := by
  cases cs with
  | nil => exact .cons (by rcases hclose with rfl | rfl <;> decide) r
  | cons c cs => exact .cons (by decide) _

theorem entry_ne_close {c : Option String × Value}
    (hc : c.1.isSome = named ∧ ∀ name, c.1 = some name → IsName name) (hv : c.2.Readable)
    (r r' : List Char) : entry c ++ r ≠ close :: r' := by
  obtain ⟨name?, v⟩ := c
  intro h
  cases name? with
  | none =>
    obtain ⟨c, cs, hcs, ho⟩ := hv.exists_chars
    simp only [entry, label, hcs, List.nil_append, List.cons_append] at h
    obtain ⟨rfl, _⟩ := List.cons.inj h
    have hnone : opening c = .none := by rcases hclose with rfl | rfl <;> decide
    rw [hnone] at ho
    revert ho
    cases v.kind <;> decide
  | some name =>
    obtain ⟨c, cs, hcs, _⟩ := hc.2 name rfl
    have hword := (hc.2 name rfl).isWordChar c (hcs ▸ List.mem_cons_self)
    simp only [entry, label, hcs, List.cons_append] at h
    obtain ⟨rfl, _⟩ := List.cons.inj h
    rcases hclose with rfl | rfl <;> cases hword

theorem more_append_inj {cs ds : List (Option String × Value)} {r r' : List Char}
    (hcs : Labels named cs) (hds : Labels named ds) (hv : ∀ c ∈ cs, c.2.Distinct)
    (hw : ∀ d ∈ ds, d.2.Readable) (h : more cs ++ close :: r = more ds ++ close :: r') :
    cs = ds ∧ r = r' := by
  induction cs generalizing ds with
  | nil =>
    cases ds with
    | nil => exact ⟨rfl, (List.cons.inj h).2⟩
    | cons d ds =>
      have : close = ',' := (List.cons.inj h).1
      rcases hclose with rfl | rfl <;> cases this
  | cons c cs ih =>
    cases ds with
    | nil =>
      have : ',' = close := (List.cons.inj h).1
      rcases hclose with rfl | rfl <;> cases this
    | cons d ds =>
      obtain ⟨hc, hcs'⟩ := List.forall_mem_cons.mp hcs
      obtain ⟨hd, hds'⟩ := List.forall_mem_cons.mp hds
      obtain ⟨hvc, hv'⟩ := List.forall_mem_cons.mp hv
      obtain ⟨hwd, hw'⟩ := List.forall_mem_cons.mp hw
      simp only [more, List.cons_append, List.append_assoc] at h
      obtain ⟨hcd, hrest⟩ := entry_append_inj hc hd hvc hwd (stops_more hclose cs r)
        (stops_more hclose ds r') (List.cons.inj (List.cons.inj h).2).2
      obtain ⟨htail, same⟩ := ih hcs' hds' hv' hw' hrest
      rw [hcd, htail]
      exact ⟨rfl, same⟩

theorem entries_append_inj {cs ds : List (Option String × Value)} {r r' : List Char}
    (hcs : Labels named cs) (hds : Labels named ds) (hv : ∀ c ∈ cs, c.2.Distinct)
    (hw : ∀ d ∈ ds, d.2.Readable) (hr : ∀ c ∈ cs, c.2.Readable)
    (h : entries cs ++ close :: r = entries ds ++ close :: r') : cs = ds ∧ r = r' := by
  cases cs with
  | nil =>
    cases ds with
    | nil => exact ⟨rfl, (List.cons.inj h).2⟩
    | cons d ds =>
      rw [entries, entries, List.append_assoc] at h
      exact absurd h.symm (entry_ne_close hclose (hds d List.mem_cons_self)
        (hw d List.mem_cons_self) _ _)
  | cons c cs =>
    cases ds with
    | nil =>
      rw [entries, entries, List.append_assoc] at h
      exact absurd h (entry_ne_close hclose (hcs c List.mem_cons_self)
        (hr c List.mem_cons_self) _ _)
    | cons d ds =>
      exact more_append_inj hclose hcs hds hv hw
        (congrArg (fun l => ',' :: ' ' :: l) h)

end

theorem Readable.kindOpening_eq {v w : Value} (h : v.Readable) (hw : w.Readable)
    {r r' : List Char} (he : v.chars ++ r = w.chars ++ r') :
    kindOpening v.kind = kindOpening w.kind := by
  obtain ⟨c, cs, hcs, ho⟩ := h.exists_chars
  obtain ⟨d, ds, hds, ho'⟩ := hw.exists_chars
  rw [hcs, hds] at he
  rw [← ho, ← ho', (List.cons.inj he).1]

theorem labels_false {children : List (Option String × Value)}
    (hn : ∀ c ∈ children, c.1 = none) : Labels false children := by
  intro c hc
  rw [hn c hc]
  exact ⟨rfl, nofun⟩

theorem labels_true {children : List (Option String × Value)}
    (hn : ∀ c ∈ children, ∃ name, c.1 = some name ∧ IsName name) : Labels true children := by
  intro c hc
  obtain ⟨name, hname, h⟩ := hn c hc
  rw [hname]
  exact ⟨rfl, fun other ho => Option.some.inj ho ▸ h⟩

theorem Readable.distinct {v : Value} (h : v.Readable) : v.Distinct := by
  induction h with
  | @var name h =>
    intro w r r' hw hr hr' he
    have same := (Readable.var h).kindOpening_eq hw he
    cases hw with
    | @var name' h' =>
      rw [chars_var, chars_var] at he
      obtain ⟨hname, hrest⟩ := word_append_inj h.isWordChar h'.isWordChar hr hr' (List.cons.inj he).2
      rw [String.toList_inj.mp hname]
      exact ⟨rfl, hrest⟩
    | @word raw _ _ => cases same.trans (kindOpening_wordKind raw)
    | _ => cases same
  | string text =>
    intro w r r' hw hr hr' he
    have same := (Readable.string text).kindOpening_eq hw he
    cases hw with
    | string text' =>
      rw [chars_string, chars_string] at he
      obtain ⟨htext, hrest⟩ := Json.quoteChars_append_inj he
      rw [String.toList_inj.mp htext]
      exact ⟨rfl, hrest⟩
    | @word raw _ _ => cases same.trans (kindOpening_wordKind raw)
    | _ => cases same
  | @word raw hchars hne =>
    intro w r r' hw hr hr' he
    have same := (kindOpening_wordKind raw).symm.trans ((Readable.word hchars hne).kindOpening_eq hw he)
    cases hw with
    | @word raw' hchars' _ =>
      rw [chars_word (kindOpening_wordKind _), chars_word (kindOpening_wordKind _)] at he
      obtain ⟨hraw, hrest⟩ := word_append_inj hchars hchars' hr hr' he
      rw [String.toList_inj.mp hraw]
      exact ⟨rfl, hrest⟩
    | _ => cases same
  | list hn h ih =>
    intro w r r' hw hr hr' he
    have same := (Readable.list hn h).kindOpening_eq hw he
    cases hw with
    | list hn' h' =>
      rw [chars_list hn, chars_list hn', List.cons_append, List.cons_append, List.append_assoc,
        List.append_assoc] at he
      obtain ⟨rfl, hrest⟩ := entries_append_inj (.inl rfl) (labels_false hn) (labels_false hn') ih h'
        h (List.cons.inj he).2
      exact ⟨rfl, hrest⟩
    | @word raw _ _ => cases same.trans (kindOpening_wordKind raw)
    | _ => cases same
  | object hn h ih =>
    intro w r r' hw hr hr' he
    have same := (Readable.object hn h).kindOpening_eq hw he
    cases hw with
    | object hn' h' =>
      rw [chars_object hn, chars_object hn', List.cons_append, List.cons_append,
        List.append_assoc, List.append_assoc] at he
      obtain ⟨rfl, hrest⟩ := entries_append_inj (.inr rfl) (labels_true hn) (labels_true hn') ih h' h
        (List.cons.inj he).2
      exact ⟨rfl, hrest⟩
    | @word raw _ _ => cases same.trans (kindOpening_wordKind raw)
    | _ => cases same

/-! ## Texts -/

/-- A string or a variable, whose text is not what it prints as. -/
def isBare : ValueKind → Bool
  | .string | .var => true
  | _ => false

/-- Two values have one text: one of the two is a string or a variable and the other is not of this
kind, or a float in them is written like a name. -/
def Confusable (v w : Value) : Prop :=
  v.raw = w.raw ∧
    (v.kind ≠ w.kind ∧ (isBare v.kind = true ∨ isBare w.kind = true) ∨
      v.hasNamedFloat = true ∨ w.hasNamedFloat = true)

instance (v w : Value) : Decidable (Confusable v w) :=
  inferInstanceAs (Decidable (_ ∧ _))

theorem Readable.chars_eq_raw {v : Value} (h : v.Readable) (hb : isBare v.kind = false) :
    v.chars = v.raw.toList := by
  cases h with
  | var | string => cases hb
  | @word raw _ _ => exact chars_word (kindOpening_wordKind raw) raw
  | list => rfl
  | object => rfl

theorem Readable.eq_leaf {v : Value} (h : v.Readable) (hb : isBare v.kind) :
    v = leaf v.kind v.raw := by
  cases h with
  | var | string | word => rfl
  | list | object => cases hb

/-- Values with one text are equal unless they are confusable. -/
theorem eq_of_raw_eq {v w : Value} (hv : v.Written) (hw : w.Written) (clear : ¬ Confusable v w)
    (h : v.raw = w.raw) : v = w := by
  simp only [Confusable, h, true_and, not_or, not_and, Bool.not_eq_true] at clear
  obtain ⟨hkind, hplain, hplain'⟩ := clear
  have hv := hv.readable hplain
  have hw := hw.readable hplain'
  cases hb : isBare v.kind with
  | true =>
    have same : v.kind = w.kind := by
      by_contra hne
      cases hb.symm.trans (hkind hne).1
    rw [hv.eq_leaf hb, hw.eq_leaf (same ▸ hb), same, h]
  | false =>
    have hb' : isBare w.kind = false := by
      by_cases same : v.kind = w.kind
      · exact same ▸ hb
      · exact (hkind same).2
    have hchars : v.chars = w.chars := by rw [hv.chars_eq_raw hb, hw.chars_eq_raw hb', h]
    exact (hv.distinct w [] [] hw .nil .nil (by rw [hchars])).1

end Value

end GraphDoc

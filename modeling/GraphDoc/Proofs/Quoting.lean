import GraphDoc.CloneName
import GraphDoc.Proofs.NameMap

/-!
# Quoted texts

A quoted text ends where it ends, whatever follows, and so it can be told from every other. By
`CloneName.identity_injective` the text that identifies the arguments of a clone tells them apart.
-/

set_option autoImplicit false

namespace GraphDoc

namespace Json

def hexValue (c : Char) : Nat := if c.toNat < 58 then c.toNat - 48 else c.toNat - 87

theorem hexValue_hexDigit : ∀ n < 16, hexValue (hexDigit n) = n := by decide

/-- Reads one character of a quoted text; there is none before a quote. -/
def unescape : List Char → Option (Char × List Char)
  | [] => none
  | '"' :: _ => none
  | '\\' :: 'u' :: _ :: _ :: a :: b :: r =>
    some (Char.ofNat (16 * hexValue a + hexValue b), r)
  | '\\' :: 'b' :: r => some (Char.ofNat 8, r)
  | '\\' :: 't' :: r => some (Char.ofNat 9, r)
  | '\\' :: 'n' :: r => some (Char.ofNat 10, r)
  | '\\' :: 'f' :: r => some (Char.ofNat 12, r)
  | '\\' :: 'r' :: r => some (Char.ofNat 13, r)
  | '\\' :: c :: r => some (c, r)
  | c :: r => some (c, r)

theorem unescape_escape (c : Char) (r : List Char) : unescape (escape c ++ r) = some (c, r) := by
  have spelt : ∀ {n}, c.toNat = n → Char.ofNat n = c := by
    rintro _ rfl
    exact Char.ofNat_toNat c
  fun_cases escape c with
  | case1 hc => subst hc; rfl
  | case2 _ hc => subst hc; rfl
  | case3 _ _ hn => exact congrArg (fun d => some (d, r)) (spelt hn)
  | case4 _ _ _ hn => exact congrArg (fun d => some (d, r)) (spelt hn)
  | case5 _ _ _ _ hn => exact congrArg (fun d => some (d, r)) (spelt hn)
  | case6 _ _ _ _ _ hn => exact congrArg (fun d => some (d, r)) (spelt hn)
  | case7 _ _ _ _ _ _ hn => exact congrArg (fun d => some (d, r)) (spelt hn)
  | case8 _ _ _ _ _ _ _ hlt =>
    refine congrArg (fun d => some (d, r)) (spelt ?_)
    rw [hexValue_hexDigit _ (by omega), hexValue_hexDigit _ (by omega)]
    omega
  | case9 _ hslash => simp [unescape, hslash]

theorem escape_ne_iff (c : Char) : escape c ≠ [c] ↔ c = '"' ∨ c = '\\' ∨ c.toNat < 32 := by
  fun_cases escape c <;> grind

theorem escape_append_inj {c d : Char} {r r' : List Char}
    (h : escape c ++ r = escape d ++ r') : c = d ∧ r = r' := by
  have key := congrArg unescape h
  rw [unescape_escape, unescape_escape] at key
  exact Prod.mk.inj (Option.some.inj key)

theorem quoteChars_append_inj {cs ds r r' : List Char}
    (h : quoteChars cs ++ r = quoteChars ds ++ r') : cs = ds ∧ r = r' := by
  simp only [quoteChars, List.cons_append, List.append_assoc, List.nil_append, List.cons.injEq,
    true_and] at h
  induction cs generalizing ds with
  | nil =>
    cases ds with
    | nil => exact ⟨rfl, List.cons.inj h |>.2⟩
    | cons d ds =>
      rw [List.flatMap_cons, List.append_assoc] at h
      have key := congrArg unescape h
      rw [unescape_escape] at key
      cases key
  | cons c cs ih =>
    cases ds with
    | nil =>
      rw [List.flatMap_cons, List.append_assoc] at h
      have key := congrArg unescape h
      rw [unescape_escape] at key
      cases key
    | cons d ds =>
      rw [List.flatMap_cons, List.flatMap_cons, List.append_assoc, List.append_assoc] at h
      obtain ⟨rfl, hrest⟩ := escape_append_inj h
      obtain ⟨rfl, hr⟩ := ih hrest
      exact ⟨rfl, hr⟩

end Json

namespace CloneName

open Json

theorem entry_append_inj {name raw name' raw' : String} {r r' : List Char}
    (h : quoteChars name.toList ++ ':' :: (quoteChars raw.toList ++ r) =
      quoteChars name'.toList ++ ':' :: (quoteChars raw'.toList ++ r')) :
    (name, raw) = (name', raw') ∧ r = r' := by
  obtain ⟨hname, h⟩ := quoteChars_append_inj h
  obtain ⟨hraw, hr⟩ := quoteChars_append_inj (List.cons.inj h).2
  rw [String.toList_inj.mp hname, String.toList_inj.mp hraw]
  exact ⟨rfl, hr⟩

theorem identityChars_append_inj {m m' : List (String × String)} {r r' : List Char}
    (h : identityChars m ++ '\x7d' :: r = identityChars m' ++ '\x7d' :: r') : m = m' := by
  induction m using identityChars.induct generalizing m' with
  | case1 =>
    match m' with
    | [] => rfl
    | [_] => cases h
    | _ :: _ :: _ => cases h
  | case2 name raw =>
    match m' with
    | [] => cases h
    | [(name', raw')] =>
      simp only [identityChars, List.append_assoc, List.cons_append] at h
      rw [(entry_append_inj h).1]
    | (name', raw') :: _ :: _ =>
      simp only [identityChars, List.append_assoc, List.cons_append] at h
      exact absurd (List.cons.inj (entry_append_inj h).2).1 (by decide)
  | case3 name raw entry rest ih =>
    match m' with
    | [] => cases h
    | [(name', raw')] =>
      simp only [identityChars, List.append_assoc, List.cons_append] at h
      exact absurd (List.cons.inj (entry_append_inj h).2).1 (by decide)
    | (name', raw') :: entry' :: rest' =>
      simp only [identityChars, List.append_assoc, List.cons_append] at h
      obtain ⟨hentry, h⟩ := entry_append_inj h
      rw [hentry, ih (List.cons.inj h).2]

theorem identity_injective {m m' : NameMap String} (h : identity m = identity m') : m = m' := by
  have key := congrArg String.toList h
  rw [identity, identity, String.toList_ofList, String.toList_ofList] at key
  exact identityChars_append_inj (List.cons.inj key).2

/-- Only quotes, backslashes and control characters are escaped, and still the text that is hashed
tells any two maps apart; it does not depend on the order in which a map was filled. -/
theorem hashed_text_injective :
    (∀ c, Json.escape c ≠ [c] ↔ c = '"' ∨ c = '\\' ∨ c.toNat < 32) ∧
    Function.Injective identity ∧
    ∀ pairs pairs', identity (.ofPairs pairs) = identity (.ofPairs pairs') ↔
      ∀ name, NameMap.get? name (.ofPairs pairs) = NameMap.get? name (.ofPairs pairs') := by
  refine ⟨Json.escape_ne_iff, fun m m' => identity_injective, fun pairs pairs' => ⟨?_, ?_⟩⟩
  · intro h name
    rw [identity_injective h]
  · intro same
    rw [(NameMap.ascending_ofPairs pairs).ext (NameMap.ascending_ofPairs pairs') same]

end CloneName

end GraphDoc

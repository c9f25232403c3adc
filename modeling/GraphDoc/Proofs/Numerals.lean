import GraphDoc.CloneName
import Mathlib.Data.Nat.Digits.Lemmas

/-!
# Numerals of hashes

A clone's name ends in a numeral, which can be read back. No digit is an underscore, so the last
underscore of the name is where the name of its template ends.
-/

set_option autoImplicit false

namespace GraphDoc.CloneName

/-- What a digit is worth: first come `0` to `9`, then `a` to `z`, then `A` to `Z`. -/
def digitValue? (c : Char) : Option Nat :=
  if '0' ≤ c ∧ c ≤ '9' then some (c.toNat - '0'.toNat)
  else if 'a' ≤ c ∧ c ≤ 'z' then some (c.toNat - 'a'.toNat + 10)
  else if 'A' ≤ c ∧ c ≤ 'Z' then some (c.toNat - 'A'.toNat + 36)
  else none

/-- The number that a numeral denotes. Its most significant digit comes first. -/
def numeral? (cs : List Char) : Option Nat :=
  cs.foldlM (fun n c => (digitValue? c).map (62 * n + ·)) 0

theorem digitValue?_digit : ∀ n < 62, digitValue? (digit n) = some n := by decide +kernel

theorem digitValue?_of_digit_eq {n : Nat} {c : Char} (hn : n < 62) (h : digit n = c) :
    digitValue? c = some n := by
  rw [← h, digitValue?_digit n hn]

/-- The places suffice for all digits of a number below that power of 62. -/
theorem digits_eq_reverse {places n : Nat} (h : n < 62 ^ places) :
    digits places n = ((Nat.digits 62 n).map digit).reverse := by
  induction places generalizing n with
  | zero =>
    have hn : n = 0 := Nat.lt_one_iff.mp h
    subst hn
    rw [digits, Nat.digits_zero, List.map_nil, List.reverse_nil]
  | succ places ih =>
    rw [digits]
    split
    · next hn => rw [hn, Nat.digits_zero, List.map_nil, List.reverse_nil]
    · next hn =>
      have hlt : n / 62 < 62 ^ places := Nat.div_lt_of_lt_mul (by rwa [Nat.pow_succ'] at h)
      rw [ih hlt, Nat.digits_eq_cons_digits_div (by decide) hn, List.map_cons, List.reverse_cons]

theorem numeral?_reverse {ds : List Nat} (h : ∀ d ∈ ds, d < 62) :
    numeral? (ds.map digit).reverse = some (Nat.ofDigits 62 ds) := by
  induction ds with
  | nil => rfl
  | cons d ds ih =>
    have hd := digitValue?_digit d (h d List.mem_cons_self)
    have hds := ih fun e he => h e (List.mem_cons_of_mem d he)
    rw [numeral?] at hds ⊢
    rw [List.map_cons, List.reverse_cons, List.foldlM_append, hds, Nat.ofDigits_cons, Nat.add_comm]
    simp only [List.foldlM_cons, List.foldlM_nil, hd, Option.map_some, Option.bind_eq_bind,
      Option.bind_some, Option.pure_def]

theorem toNat_lt_pow (value : UInt32) : value.toNat < 62 ^ 6 :=
  Nat.lt_trans (UInt32.toNat_lt value) (by decide)

theorem toList_base62 {value : UInt32} (h : value ≠ 0) :
    (base62 value).toList = ((Nat.digits 62 value.toNat).map digit).reverse := by
  rw [base62, if_neg h, String.toList_ofList, digits_eq_reverse (toNat_lt_pow value)]

theorem toNat_ne_zero {value : UInt32} (h : value ≠ 0) : value.toNat ≠ 0 :=
  fun hn => h (UInt32.toNat_inj.mp hn)

theorem numeral?_base62 (value : UInt32) : numeral? (base62 value).toList = some value.toNat := by
  by_cases h : value = 0
  · subst h
    rfl
  · rw [toList_base62 h, numeral?_reverse fun d => Nat.digits_lt_base (by decide),
      Nat.ofDigits_digits]

theorem length_base62_le (value : UInt32) : (base62 value).toList.length ≤ 6 := by
  by_cases h : value = 0
  · subst h
    decide
  · rw [toList_base62 h, List.length_reverse, List.length_map]
    exact (Nat.digits_length_le_iff (by decide) _).mpr (toNat_lt_pow value)

theorem base62_ne_nil (value : UInt32) : (base62 value).toList ≠ [] := by
  by_cases h : value = 0
  · subst h
    decide
  · rw [toList_base62 h, Ne, List.reverse_eq_nil_iff, List.map_eq_nil_iff]
    exact Nat.digits_ne_nil_iff_ne_zero.mpr (toNat_ne_zero h)

theorem head?_base62_iff (value : UInt32) :
    (base62 value).toList.head? = some '0' ↔ value = 0 := by
  constructor
  · intro hhead
    by_contra h
    have hne : Nat.digits 62 value.toNat ≠ [] :=
      Nat.digits_ne_nil_iff_ne_zero.mpr (toNat_ne_zero h)
    rw [toList_base62 h, List.head?_reverse, List.getLast?_map, List.getLast?_eq_some_getLast hne]
      at hhead
    have hlt := Nat.digits_lt_base (by decide) (List.getLast_mem hne)
    have hzero := digitValue?_of_digit_eq hlt (Option.some.inj hhead)
    exact Nat.getLast_digit_ne_zero 62 (toNat_ne_zero h) (Option.some.inj hzero).symm
  · rintro rfl
    rfl

theorem underscore_notMem_base62 (value : UInt32) : '_' ∉ (base62 value).toList := by
  by_cases h : value = 0
  · subst h
    decide
  · rw [toList_base62 h, List.mem_reverse, List.mem_map]
    rintro ⟨d, hd, heq⟩
    cases digitValue?_of_digit_eq (Nat.digits_lt_base (by decide) hd) heq

theorem idxOf_underscore {cs ds : List Char} (hds : '_' ∉ ds) :
    (cs ++ '_' :: ds).reverse.idxOf '_' = ds.length := by
  rw [List.reverse_append, List.reverse_cons, List.append_assoc,
    List.idxOf_append_of_notMem (mt List.mem_reverse.mp hds), List.length_reverse]
  rfl

theorem append_underscore_inj {cs cs' ds ds' : List Char} (hds : '_' ∉ ds) (hds' : '_' ∉ ds')
    (h : cs ++ '_' :: ds = cs' ++ '_' :: ds') : cs = cs' ∧ ds = ds' := by
  have hlength := congrArg (·.reverse.idxOf '_') h
  simp only [idxOf_underscore hds, idxOf_underscore hds'] at hlength
  obtain ⟨hcs, hend⟩ := List.append_inj' h (congrArg (· + 1) hlength)
  exact ⟨hcs, (List.cons.inj hend).2⟩

theorem append_base62_inj {template template' : String} {u v : UInt32} :
    template ++ "_" ++ base62 u = template' ++ "_" ++ base62 v ↔ template = template' ∧ u = v := by
  constructor
  · intro h
    have key := congrArg String.toList h
    simp only [String.toList_append, List.append_assoc] at key
    obtain ⟨htemplate, hending⟩ := append_underscore_inj (underscore_notMem_base62 u)
      (underscore_notMem_base62 v) key
    have hvalue := congrArg numeral? hending
    rw [numeral?_base62, numeral?_base62] at hvalue
    exact ⟨String.toList_inj.mp htemplate, UInt32.toNat_inj.mp (Option.some.inj hvalue)⟩
  · rintro ⟨rfl, rfl⟩
    rfl

/-- A clone's name tells its template and its hash, whatever underscores the template's name has. -/
theorem clone_names_decode :
    (∀ value : UInt32,
      numeral? (base62 value).toList = some value.toNat ∧
      (base62 value).toList ≠ [] ∧
      (base62 value).toList.length ≤ 6 ∧
      ((base62 value).toList.head? = some '0' ↔ value = 0) ∧
      '_' ∉ (base62 value).toList) ∧
    (∀ (template template' : String) (u v : UInt32),
      template ++ "_" ++ base62 u = template' ++ "_" ++ base62 v ↔
        template = template' ∧ u = v) ∧
    ∀ (template template' : String) (arguments arguments' : NameMap String),
      cloneName template arguments = cloneName template' arguments' ↔
        template = template' ∧ hash (identity arguments) 0 = hash (identity arguments') 0 := by
  refine ⟨fun value => ?_, fun _ _ _ _ => append_base62_inj, fun _ _ _ _ => append_base62_inj⟩
  exact ⟨numeral?_base62 value, base62_ne_nil value, length_base62_le value,
    head?_base62_iff value, underscore_notMem_base62 value⟩

end GraphDoc.CloneName

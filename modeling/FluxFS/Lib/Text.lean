import Mathlib

/-!
# Text — splitting text and reading numerals

`splitOnce` cuts a text at the first separator. `parseUint` reads an unsigned numeral of a
given radix up to a maximum: a sign is allowed, letters count in both cases, and leading
zeros do not matter. It reads back what `Nat.toDigits` prints, padded or not, and a decimal
numeral without a sign and without leading zeros is the only one of its number. `utf8` are
the bytes of a text.
-/

namespace Kit

/-- The text before and after the first `sep`. -/
def splitOnce (sep : Char) : List Char → Option (List Char × List Char)
  | [] => none
  | c :: cs =>
    if c = sep then some ([], cs)
    else (splitOnce sep cs).map fun (before, after) => (c :: before, after)

theorem splitOnce_eq_some {sep : Char} {cs before after : List Char} :
    splitOnce sep cs = some (before, after) ↔ cs = before ++ sep :: after ∧ sep ∉ before := by
  induction cs generalizing before with
  | nil => simp [splitOnce]
  | cons c cs ih =>
    by_cases hc : c = sep
    · subst hc
      rw [splitOnce, if_pos rfl, Option.some.injEq, Prod.mk.injEq]
      cases before with
      | nil => simp [eq_comm]
      | cons b before =>
        refine ⟨fun h => by simp at h, fun h => ?_⟩
        exact absurd (List.mem_cons.mpr (.inl (List.cons.inj h.1).1)) h.2
    · rw [splitOnce, if_neg hc, Option.map_eq_some_iff]
      constructor
      · rintro ⟨⟨front, back⟩, hsplit, heq⟩
        cases heq
        obtain ⟨rfl, hfront⟩ := ih.mp hsplit
        exact ⟨rfl, by simp [hfront, Ne.symm hc]⟩
      · rintro ⟨heq, hbefore⟩
        cases before with
        | nil => exact absurd (List.cons.inj heq).1 hc
        | cons b before =>
          obtain ⟨rfl, rfl⟩ := List.cons.inj heq
          refine ⟨(before, after), ih.mpr ⟨rfl, fun h => ?_⟩, rfl⟩
          exact hbefore (List.mem_cons_of_mem _ h)

/-- Where texts without the separator stand in front of it, it cuts them off. -/
theorem append_sep_inj {sep : Char} {before before' after after' : List Char} (h : sep ∉ before)
    (h' : sep ∉ before') (heq : before ++ sep :: after = before' ++ sep :: after') :
    before = before' ∧ after = after' := by
  have hsplit := splitOnce_eq_some.mpr ⟨heq, h'⟩
  rw [splitOnce_eq_some.mpr ⟨rfl, h⟩] at hsplit
  cases hsplit
  exact ⟨rfl, rfl⟩

/-! ## Numerals -/

/-- `char::to_digit`. -/
def digitVal? (radix : Nat) (c : Char) : Option Nat :=
  let value :=
    if '0' ≤ c ∧ c ≤ '9' then some (c.toNat - '0'.toNat)
    else if 'a' ≤ c ∧ c ≤ 'z' then some (c.toNat - 'a'.toNat + 10)
    else if 'A' ≤ c ∧ c ≤ 'Z' then some (c.toNat - 'A'.toNat + 10)
    else none
  value.filter (· < radix)

/-- The digits of a numeral, behind those already read. -/
def parseDigits (max radix : Nat) : Nat → List Char → Option Nat
  | n, [] => some n
  | n, c :: cs =>
    match digitVal? radix c with
    | none => none
    | some d => if n * radix + d ≤ max then parseDigits max radix (n * radix + d) cs else none

/-- `from_str_radix` of an unsigned type that ends at `max`. -/
def parseUint (max radix : Nat) : List Char → Option Nat
  | [] => none
  | ['+'] => none
  | '+' :: digits => parseDigits max radix 0 digits
  | digits => parseDigits max radix 0 digits

/-- The digits that stop `parseDigits`: one that is none, or one too many. -/
def digitsError (max radix : Nat) : Nat → List Char → String
  | _, [] => "invalid digit found in string"
  | n, c :: cs =>
    match digitVal? radix c with
    | none => "invalid digit found in string"
    | some d =>
      if n * radix + d ≤ max then digitsError max radix (n * radix + d) cs
      else "number too large to fit in target type"

/-- The `ParseIntError` of a text that `parseUint` refuses. -/
def parseUintError (max radix : Nat) : List Char → String
  | [] => "cannot parse integer from empty string"
  | '+' :: digits => digitsError max radix 0 digits
  | digits => digitsError max radix 0 digits

section
variable {max radix n m : Nat} {c : Char} {cs digits : List Char}

theorem parseDigits_append (cs digits : List Char) :
    parseDigits max radix n (cs ++ digits) =
      (parseDigits max radix n cs).bind (parseDigits max radix · digits) := by
  induction cs generalizing n with
  | nil => rfl
  | cons c cs ih =>
    rw [List.cons_append, parseDigits, parseDigits]
    split
    · rfl
    · split
      · exact ih
      · rfl

theorem digitVal?_digitChar {d : Nat} (hd : d < radix) (hradix : radix ≤ 16) :
    digitVal? radix d.digitChar = some d := by
  have hall : ∀ d < 16, digitVal? 16 d.digitChar = some d := by decide
  have h16 := hall d (by omega)
  rw [digitVal?, Option.filter_eq_some_iff] at h16 ⊢
  exact ⟨h16.1, decide_eq_true hd⟩

/-- A printed number is read back. -/
theorem parseDigits_toDigits (hradix : 1 < radix) (hsmall : radix ≤ 16) (hn : n ≤ max) :
    parseDigits max radix 0 (radix.toDigits n) = some n := by
  induction n using Nat.strongRecOn with
  | ind n ih =>
    rw [Nat.toDigits_eq_if hradix]
    split
    · rename_i hlt
      rw [parseDigits, digitVal?_digitChar hlt hsmall]
      dsimp only
      rw [Nat.zero_mul, Nat.zero_add, if_pos hn]
      rfl
    · rename_i hge
      have hless : n / radix < n := Nat.div_lt_self (by omega) hradix
      have hvalue : n / radix * radix + n % radix = n := Nat.div_add_mod' n radix
      have hdigit : n % radix < radix := Nat.mod_lt n (by omega)
      rw [parseDigits_append, ih _ hless (by omega), Option.bind_some, parseDigits,
        digitVal?_digitChar hdigit hsmall]
      dsimp only
      rw [hvalue, if_pos hn]
      rfl

/-- Leading zeros do not matter. -/
theorem parseDigits_zeros (hradix : 0 < radix) (k : Nat) (cs : List Char) :
    parseDigits max radix 0 (List.replicate k '0' ++ cs) = parseDigits max radix 0 cs := by
  induction k with
  | zero => rfl
  | succ k ih =>
    have hzero : digitVal? radix '0' = some 0 := by
      rw [digitVal?, Option.filter_eq_some_iff]
      exact ⟨by decide, decide_eq_true hradix⟩
    rw [List.replicate_succ, List.cons_append, parseDigits, hzero]
    dsimp only
    rw [Nat.zero_mul, Nat.zero_add, if_pos (Nat.zero_le _)]
    exact ih

/-- Without a sign only the digits count. -/
theorem parseUint_of_unsigned (hne : cs ≠ []) (hsign : cs.head? ≠ some '+') :
    parseUint max radix cs = parseDigits max radix 0 cs := by
  cases cs with
  | nil => exact absurd rfl hne
  | cons c cs =>
    have hc : c ≠ '+' := by simpa using hsign
    rw [parseUint.eq_def]
    split
    · rename_i heq
      cases heq
    · rename_i heq
      exact absurd (List.cons.inj heq).1 hc
    · rename_i heq
      exact absurd (List.cons.inj heq).1 hc
    · rfl

/-- Every character of a numeral is a digit. -/
theorem digitVal?_of_parseDigits (h : parseDigits max radix n cs = some m) (hc : c ∈ cs) :
    (digitVal? radix c).isSome := by
  induction cs generalizing n with
  | nil => cases hc
  | cons b cs ih =>
    rw [parseDigits] at h
    split at h
    · cases h
    · rename_i d hd
      split at h
      · obtain rfl | hc := List.mem_cons.mp hc
        · rw [hd]
          rfl
        · exact ih h hc
      · cases h

/-! ## Hexadecimal numerals of a fixed width -/

/-- At least `w` lower-case digits. -/
def paddedHex (w n : Nat) : List Char := (Nat.toDigits 16 n).leftpad w '0'

theorem length_paddedHex {w : Nat} (hw : 0 < w) (hn : n < 16 ^ w) : (paddedHex w n).length = w := by
  rw [paddedHex, List.length_leftpad]
  exact max_eq_left ((Nat.length_toDigits_le_iff (by decide) hw).mpr hn)

theorem parseDigits_paddedHex (w : Nat) (hn : n ≤ max) :
    parseDigits max 16 0 (paddedHex w n) = some n := by
  rw [paddedHex, List.leftpad, parseDigits_zeros (by decide)]
  exact parseDigits_toDigits (by decide) (by decide) hn

/-- What is not a digit does not occur in a padded numeral. -/
theorem not_mem_paddedHex {w : Nat} (hc : digitVal? 16 c = none) : c ∉ paddedHex w n := by
  intro hmem
  have hdigit := digitVal?_of_parseDigits (parseDigits_paddedHex w (le_refl n)) hmem
  rw [hc] at hdigit
  cases hdigit

theorem parseUint_paddedHex (w : Nat) (hn : n ≤ max) :
    parseUint max 16 (paddedHex w n) = some n := by
  have hplus : '+' ∉ paddedHex w n := not_mem_paddedHex (by decide)
  rw [parseUint_of_unsigned]
  · exact parseDigits_paddedHex w hn
  · rw [paddedHex, List.leftpad]
    exact List.append_ne_nil_of_right_ne_nil _ Nat.toDigits_ne_nil
  · intro hhead
    exact hplus (List.mem_of_mem_head? hhead)

theorem paddedHex_inj {w : Nat} : paddedHex w n = paddedHex w m ↔ n = m := by
  constructor
  · intro h
    have hread := parseUint_paddedHex w (le_max_left n m)
    rw [h, parseUint_paddedHex w (le_max_right n m)] at hread
    exact (Option.some.inj hread).symm
  · rintro rfl
    rfl

/-! ## Decimal numerals -/

theorem of_digitVal?_ten {d : Nat} (h : digitVal? 10 c = some d) : c = d.digitChar ∧ d < 10 := by
  rw [digitVal?, Option.filter_eq_some_iff] at h
  obtain ⟨hvalue, hlt⟩ := h
  have hlt : d < 10 := of_decide_eq_true hlt
  split_ifs at hvalue with hdigit
  · cases hvalue
    have hprinted : ∀ k < 10, k.digitChar.toNat = k + '0'.toNat := by decide
    have hle : '0'.toNat ≤ c.toNat := hdigit.1
    refine ⟨Char.toNat_inj.mp ?_, hlt⟩
    rw [hprinted _ hlt]
    omega
  · cases hvalue
    omega
  · cases hvalue
    omega

/-- No sign, and no zero in front. -/
def Canonical (digits : List Char) : Prop :=
  digits.head? ≠ some '+' ∧ (digits.head? = some '0' → digits = ['0'])

instance (digits : List Char) : Decidable (Canonical digits) := inferInstanceAs (Decidable (_ ∧ _))

theorem toDigits_of_parseDigits (hne : cs ≠ []) (hzero : cs.head? = some '0' → cs = ['0'])
    (h : parseDigits max 10 0 cs = some n) :
    Nat.toDigits 10 n = cs ∧ (cs ≠ ['0'] → 0 < n) := by
  -- induction from the end: the last digit is the remainder
  induction cs using List.reverseRecOn generalizing n with
  | nil => exact absurd rfl hne
  | append_singleton cs c ih =>
    rw [parseDigits_append, Option.bind_eq_some_iff] at h
    obtain ⟨m, hm, h⟩ := h
    rw [parseDigits] at h
    split at h
    · cases h
    · rename_i d hvalue
      obtain ⟨rfl, hd⟩ := of_digitVal?_ten hvalue
      split at h
      · cases h
        cases cs with
        | nil =>
          cases hm
          rw [Nat.zero_mul, Nat.zero_add, Nat.toDigits_of_lt_base hd]
          refine ⟨rfl, fun hne => Nat.pos_of_ne_zero ?_⟩
          rintro rfl
          exact hne rfl
        | cons b cs =>
          have hb : (b :: cs).head? ≠ some '0' := by
            intro hb
            have hone := congrArg List.length (hzero (by simpa using hb))
            simp at hone
          obtain ⟨hdigits, hpos⟩ := ih (by simp) (fun h => absurd h hb) hm
          have hm : 0 < m := hpos fun heq => hb (by rw [heq]; rfl)
          refine ⟨?_, fun _ => by omega⟩
          rw [Nat.mul_comm m 10, ← Nat.toDigits_append_toDigits (by decide) hm hd, hdigits,
            Nat.toDigits_of_lt_base hd]
      · cases h

/-- A canonical decimal numeral is what its number prints as. -/
theorem toDigits_of_parseUint (hcanonical : Canonical cs) (h : parseUint max 10 cs = some n) :
    Nat.toDigits 10 n = cs := by
  have hne : cs ≠ [] := by
    rintro rfl
    cases h
  rw [parseUint_of_unsigned hne hcanonical.1] at h
  exact (toDigits_of_parseDigits hne hcanonical.2 h).1

theorem not_mem_toDigits (hc : c.isDigit = false) : c ∉ Nat.toDigits 10 n := by
  intro hmem
  rw [Nat.isDigit_of_mem_toDigits (by decide) (by decide) hmem] at hc
  cases hc

theorem toDigits_head?_ne_plus (n : Nat) : (Nat.toDigits 10 n).head? ≠ some '+' := by
  intro h
  exact not_mem_toDigits (by decide) (List.mem_of_mem_head? h)

theorem toDigits_head?_ne_zero (hn : 0 < n) : (Nat.toDigits 10 n).head? ≠ some '0' := by
  induction n using Nat.strongRecOn with
  | ind n ih =>
    rw [Nat.toDigits_eq_if (by decide)]
    split
    · rename_i hlt
      interval_cases n <;> decide
    · rename_i hge
      have hhead := ih (n / 10) (Nat.div_lt_self hn (by decide)) (by omega)
      rwa [List.head?_append_of_ne_nil _ Nat.toDigits_ne_nil]

/-- A number prints as a canonical numeral. -/
theorem canonical_toDigits (n : Nat) : Canonical (Nat.toDigits 10 n) := by
  refine ⟨toDigits_head?_ne_plus n, fun hzero => ?_⟩
  rcases Nat.eq_zero_or_pos n with rfl | hpos
  · rfl
  · exact absurd hzero (toDigits_head?_ne_zero hpos)

theorem parseUint_toDigits (hn : n ≤ max) : parseUint max 10 (Nat.toDigits 10 n) = some n := by
  rw [parseUint_of_unsigned Nat.toDigits_ne_nil (toDigits_head?_ne_plus n)]
  exact parseDigits_toDigits (by decide) (by decide) hn

end

/-! ## Text as bytes -/

/-- The UTF-8 bytes of a text. -/
def utf8 (s : String) : List UInt8 := s.toByteArray.data.toList

/-- `str::from_utf8`. -/
def fromUtf8 (bytes : List UInt8) : Option String := String.fromUTF8? ⟨bytes.toArray⟩

theorem fromUtf8_eq_some {bytes : List UInt8} {s : String} :
    fromUtf8 bytes = some s ↔ bytes = utf8 s := by
  rw [fromUtf8, String.fromUTF8?]
  constructor
  · intro h
    split at h
    · cases h
      rfl
    · cases h
  · rintro rfl
    have hbytes : (⟨(utf8 s).toArray⟩ : ByteArray) = s.toByteArray := by simp [utf8]
    rw [dif_pos (by rw [hbytes]; exact s.isValidUTF8)]
    exact congrArg some (String.toByteArray_inj.mp hbytes)

end Kit

import FluxFS.Lib.Text
import FluxFS.Types

/-!
# OtherName — the URI in a certificate

`decode_spiffe_othername` of `crates/tls/src/authz.rs` peels a `[0] EXPLICIT` wrapper and a
`UTF8String` tag off the bytes of a certificate's name. It takes the byte after a tag as
the length, which is what it is in DER as long as the content is shorter than 128 bytes.
-/

namespace FluxFS

open Kit

/-! ## The decoder -/

/-- Peeling a tag and its length, if the first byte is such a tag. -/
def peel (tagged : UInt8 → Bool) : Bytes → Option Bytes
  | tag :: len :: content =>
    if tagged tag then
      if 2 + len.toNat = (tag :: len :: content).length then some content else none
    else some (tag :: len :: content)
  | cur => some cur

/-- Class context-specific, tag number 0. -/
def isExplicit (tag : UInt8) : Bool := tag &&& 0xC0 = 0x80 ∧ tag &&& 0x1F = 0

/-- The tag of a UTF8String. -/
def isUtf8String (tag : UInt8) : Bool := tag = 0x0C

/-- The scheme of a workload identity. -/
def isSpiffe (s : String) : Prop := "spiffe://".toList <+: s.toList

instance (s : String) : Decidable (isSpiffe s) := inferInstanceAs (Decidable (_ <+: _))

/-- `decode_spiffe_othername`. -/
def decodeSpiffeOthername (bytes : Bytes) : Option String := do
  let cur ← peel isExplicit bytes
  let payload ← peel isUtf8String cur
  let s ← fromUtf8 payload
  if isSpiffe s then some s else none

/-! ## DER -/

/-- The length octets of DER: one below 128, else a count and the big-endian length. -/
def derLength (n : Nat) : Bytes :=
  if n < 128 then [UInt8.ofNat n]
  else
    let octets := (Nat.digits 256 n).reverse.map UInt8.ofNat
    UInt8.ofNat (128 + octets.length) :: octets

/-- DER: tag, length, content. -/
def der (tag : UInt8) (content : Bytes) : Bytes := tag :: (derLength content.length ++ content)

/-- `UTF8String(s)`. -/
def derUtf8String (s : String) : Bytes := der 0x0C (utf8 s)

/-- `[0] EXPLICIT UTF8String(s)`. -/
def derExplicit (s : String) : Bytes := der 0xA0 (derUtf8String s)

/-! ## What is decoded -/

section
variable {tagged : UInt8 → Bool} {bytes content cur : Bytes} {tag len : UInt8} {s : String}

theorem peel_tagged (htag : tagged tag = true) (hlen : len.toNat = content.length) :
    peel tagged (tag :: len :: content) = some content := by
  rw [peel, if_pos htag, if_pos]
  rw [List.length_cons, List.length_cons]
  omega

theorem peel_untagged (h : ∀ tag ∈ bytes.head?, tagged tag = false) :
    peel tagged bytes = some bytes := by
  rw [peel.eq_def]
  split
  · rename_i tag len content
    rw [if_neg]
    rw [h tag rfl]
    exact Bool.false_ne_true
  · rfl

/-- Nothing is peeled, or a tag with the length of all that follows. -/
theorem of_peel (h : peel tagged bytes = some cur) :
    bytes = cur ∨ ∃ tag len, tagged tag = true ∧ len.toNat = cur.length ∧
      bytes = tag :: len :: cur := by
  rw [peel.eq_def] at h
  split at h
  · rename_i tag len content
    split at h
    · rename_i htag
      split at h
      · rename_i hlen
        cases h
        rw [List.length_cons, List.length_cons] at hlen
        exact .inr ⟨tag, len, htag, by omega, rfl⟩
      · cases h
    · cases h
      exact .inl rfl
  · cases h
    exact .inl rfl

theorem der_short (h : content.length < 128) :
    der tag content = tag :: UInt8.ofNat content.length :: content := by
  rw [der, derLength, if_pos h]
  rfl

theorem toNat_short {n : Nat} (h : n < 128) : (UInt8.ofNat n).toNat = n :=
  UInt8.toNat_ofNat_of_lt' (Nat.lt_trans h (by decide))

theorem length_der : (der tag content).length =
    1 + (derLength content.length).length + content.length := by
  rw [der, List.length_cons, List.length_append]
  omega

theorem two_le_length_derLength {n : Nat} (h : 128 ≤ n) : 2 ≤ (derLength n).length := by
  have hdigits : Nat.digits 256 n ≠ [] := Nat.digits_ne_nil_iff_ne_zero.mpr (by omega)
  rw [derLength, if_neg (by omega), List.length_cons, List.length_map, List.length_reverse]
  have hpos := List.length_pos_iff.mpr hdigits
  omega

theorem one_le_length_derLength (n : Nat) : 1 ≤ (derLength n).length := by
  rw [derLength]
  split
  · exact Nat.le_refl 1
  · exact Nat.succ_le_succ (Nat.zero_le _)

theorem decode_payload (h : isSpiffe s) (hcur : peel isExplicit bytes = some cur)
    (hpayload : peel isUtf8String cur = some (utf8 s)) : decodeSpiffeOthername bytes = some s := by
  refine Option.bind_eq_some_iff.mpr ⟨cur, hcur, ?_⟩
  refine Option.bind_eq_some_iff.mpr ⟨utf8 s, hpayload, ?_⟩
  refine Option.bind_eq_some_iff.mpr ⟨s, fromUtf8_eq_some.mpr rfl, ?_⟩
  rw [if_pos h]

/-- The tags and lengths in front of `n` bytes. -/
inductive Header (n : Nat) : Bytes → Prop
  | bare : Header n []
  | utf8String {len : UInt8} : len.toNat = n → Header n [0x0C, len]
  | explicit {tag len : UInt8} : isExplicit tag → len.toNat = n → Header n [tag, len]
  | both {tag len len' : UInt8} : isExplicit tag → len.toNat = n + 2 → len'.toNat = n →
      Header n [tag, len, 0x0C, len']

theorem of_decode (h : decodeSpiffeOthername bytes = some s) :
    isSpiffe s ∧ ∃ header, bytes = header ++ utf8 s ∧ Header (utf8 s).length header := by
  rw [decodeSpiffeOthername] at h
  obtain ⟨cur, hcur, h⟩ := Option.bind_eq_some_iff.mp h
  obtain ⟨payload, hpayload, h⟩ := Option.bind_eq_some_iff.mp h
  obtain ⟨uri, huri, h⟩ := Option.bind_eq_some_iff.mp h
  split_ifs at h with hspiffe
  cases h
  rw [fromUtf8_eq_some] at huri
  subst huri
  refine ⟨hspiffe, ?_⟩
  rcases of_peel hpayload with rfl | ⟨tag', len', htag', hlen', rfl⟩
  · rcases of_peel hcur with rfl | ⟨tag, len, htag, hlen, rfl⟩
    · exact ⟨[], rfl, .bare⟩
    · exact ⟨[tag, len], rfl, .explicit htag hlen⟩
  · have htag' : tag' = 0x0C := of_decide_eq_true htag'
    subst htag'
    rcases of_peel hcur with rfl | ⟨tag, len, htag, hlen, rfl⟩
    · exact ⟨[0x0C, len'], rfl, .utf8String hlen'⟩
    · exact ⟨[tag, len, 0x0C, len'], rfl, .both htag (by simpa using hlen) hlen'⟩

theorem Header.length_le {n : Nat} {header : Bytes} (h : Header n header) : header.length ≤ 4 := by
  cases h <;> simp

theorem decode_explicit (hs : isSpiffe s) (hlen : (utf8 s).length ≤ 125) :
    decodeSpiffeOthername (derExplicit s) = some s := by
  have hinner : derUtf8String s = 0x0C :: UInt8.ofNat (utf8 s).length :: utf8 s :=
    der_short (by omega)
  have hshort : (derUtf8String s).length < 128 := by
    rw [hinner, List.length_cons, List.length_cons]
    omega
  rw [derExplicit, der_short hshort]
  refine decode_payload hs (peel_tagged rfl (toNat_short hshort)) ?_
  rw [hinner]
  exact peel_tagged rfl (toNat_short (by omega))

theorem decode_utf8String (hs : isSpiffe s) (hlen : (utf8 s).length ≤ 127) :
    decodeSpiffeOthername (derUtf8String s) = some s := by
  rw [derUtf8String, der_short (by omega)]
  refine decode_payload hs (peel_untagged fun tag htag => ?_)
    (peel_tagged rfl (toNat_short (by omega)))
  cases htag
  decide

/-- With a long length the tags take five bytes or more, and only four are peeled. -/
theorem short_of_decode_explicit (h : decodeSpiffeOthername (derExplicit s) = some s) :
    (utf8 s).length ≤ 125 := by
  obtain ⟨-, header, hbytes, hheader⟩ := of_decode h
  have htotal := congrArg List.length hbytes
  have hpeeled := hheader.length_le
  rw [derExplicit, length_der, List.length_append] at htotal
  by_contra hlong
  have hinner : (derUtf8String s).length = 1 + (derLength (utf8 s).length).length +
    (utf8 s).length := length_der
  have hone := one_le_length_derLength (utf8 s).length
  have houter := two_le_length_derLength (n := (derUtf8String s).length) (by omega)
  omega

/-- With a long length the tag takes three bytes or more, and none of the headers that are
longer than two starts with this tag. -/
theorem short_of_decode_utf8String (h : decodeSpiffeOthername (derUtf8String s) = some s) :
    (utf8 s).length ≤ 127 := by
  obtain ⟨-, header, hbytes, hheader⟩ := of_decode h
  have htotal := congrArg List.length hbytes
  rw [derUtf8String, length_der, List.length_append] at htotal
  by_contra hlong
  have hlength := two_le_length_derLength (n := (utf8 s).length) (by omega)
  cases hheader with
  | bare => simp at htotal
  | utf8String => simp at htotal; omega
  | explicit => simp at htotal; omega
  | @both tag len len' hexplicit =>
    rw [derUtf8String, der] at hbytes
    obtain rfl : (0x0C : UInt8) = tag := (List.cons.inj hbytes).1
    cases hexplicit

end

/-- A URI is decoded exactly if its DER lengths take one byte each, and a decoded URI is all
there is behind the tags. -/
theorem decode_spiffe_exact (s : String) (bytes : Bytes) :
    (isSpiffe s →
      (decodeSpiffeOthername (derExplicit s) = some s ↔ (utf8 s).length ≤ 125)) ∧
    (isSpiffe s →
      (decodeSpiffeOthername (derUtf8String s) = some s ↔ (utf8 s).length ≤ 127)) ∧
    (decodeSpiffeOthername bytes = some s →
      ∃ header, bytes = header ++ utf8 s ∧ Header (utf8 s).length header) :=
  ⟨fun hs => ⟨short_of_decode_explicit, decode_explicit hs⟩,
    fun hs => ⟨short_of_decode_utf8String, decode_utf8String hs⟩, fun h => (of_decode h).2⟩

theorem decode_spiffe_exact_meta :
    decodeSpiffeOthername (derExplicit "spiffe://fluxfs/meta/g0") =
      some "spiffe://fluxfs/meta/g0" :=
  ((decode_spiffe_exact _ []).1 (by decide)).mpr (by decide)

/-- A name of 128 bytes. -/
def longUri : String := "spiffe://fluxfs/meta/" ++ String.ofList (List.replicate 107 'g')

/-- With 128 bytes the length takes two bytes, and nothing is decoded. -/
theorem long_uri_not_decoded :
    isSpiffe longUri ∧ (utf8 longUri).length = 128 ∧
      decodeSpiffeOthername (derExplicit longUri) = none ∧
      decodeSpiffeOthername (derUtf8String longUri) = none := by
  decide +kernel

end FluxFS

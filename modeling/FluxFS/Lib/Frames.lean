import FluxFS.Lib.Word

/-!
# Frames — length-prefixed records in a byte stream

A frame is the four-byte little-endian length of its payload and the
payload. A reader at the end of a stream sees one of three things: too few
bytes for a length, a payload that is cut off, or a whole frame. A stream of
frames that stops early stops inside some frame (`strictPrefix_append`), and
no cut frame reads as a whole one (`readFrame_of_strictPrefix`). A record that shows where
it ends (`Delimits`) can be followed by anything, so a stream of such records is of one
list of records only.
-/

namespace Kit

/-- Length, then payload. -/
def frame (payload : List UInt8) : List UInt8 := toLeBytes 4 payload.length ++ payload

/-- What is read at the front of a byte string. -/
inductive FrameRead where
  /-- Fewer bytes than a length field. -/
  | eof
  /-- Fewer bytes than the length says. -/
  | cut
  | payload (bytes rest : List UInt8)
deriving DecidableEq, Repr

/-- Read one frame: a length of four bytes, then so many bytes. -/
def readFrame (bytes : List UInt8) : FrameRead :=
  if bytes.length < 4 then .eof
  else
    let len := fromLeBytes (bytes.take 4)
    let rest := bytes.drop 4
    if rest.length < len then .cut else .payload (rest.take len) (rest.drop len)

/-- `short` stops before the end of `whole`. -/
def StrictPrefix (short whole : List UInt8) : Prop := short <+: whole ∧ short ≠ whole

section
variable {payload bytes rest short : List UInt8}

theorem length_frame (payload : List UInt8) : (frame payload).length = 4 + payload.length := by
  simp [frame]

theorem fromLeBytes_length (h : payload.length ≤ u32Max) :
    fromLeBytes (toLeBytes 4 payload.length) = payload.length := by
  apply fromLeBytes_toLeBytes
  unfold u32Max at h
  omega

theorem readFrame_frame (h : payload.length ≤ u32Max) (rest : List UInt8) :
    readFrame (frame payload ++ rest) = .payload payload rest := by
  have hfour : (toLeBytes 4 payload.length).length = 4 := length_toLeBytes ..
  have htake : (frame payload ++ rest).take 4 = toLeBytes 4 payload.length := by
    rw [frame, List.append_assoc, List.take_left' hfour]
  have hdrop : (frame payload ++ rest).drop 4 = payload ++ rest := by
    rw [frame, List.append_assoc, List.drop_left' hfour]
  have hlong : ¬ (frame payload ++ rest).length < 4 := by
    rw [List.length_append, length_frame]
    omega
  have hwhole : ¬ (payload ++ rest).length < payload.length := by
    rw [List.length_append]
    omega
  simp only [readFrame, if_neg hlong, htake, hdrop, fromLeBytes_length h, if_neg hwhole,
    List.take_left, List.drop_left]

theorem length_of_readFrame (h : readFrame bytes = .payload payload rest) :
    rest.length < bytes.length := by
  unfold readFrame at h
  split at h
  · cases h
  · dsimp only at h
    split at h
    · cases h
    · cases h
      simp only [List.length_drop]
      omega

theorem StrictPrefix.length_lt {whole : List UInt8} (h : StrictPrefix short whole) :
    short.length < whole.length := by
  rcases Nat.lt_or_ge short.length whole.length with hlt | hge
  · exact hlt
  · exact absurd (h.1.eq_of_length (Nat.le_antisymm h.1.length_le hge)) h.2

/-- A cut frame reads as the end of the stream or as cut off. -/
theorem readFrame_of_strictPrefix (hlen : payload.length ≤ u32Max)
    (h : StrictPrefix short (frame payload)) : readFrame short = .eof ∨ readFrame short = .cut := by
  have hshort := h.length_lt
  rw [length_frame] at hshort
  unfold readFrame
  split
  · exact .inl rfl
  · rename_i hfour
    obtain ⟨tail, htail⟩ := h.1
    have htake : short.take 4 = toLeBytes 4 payload.length := by
      have hwhole := congrArg (List.take 4) htail
      rw [List.take_append_of_le_length (Nat.not_lt.mp hfour), frame,
        List.take_left' (length_toLeBytes ..)] at hwhole
      exact hwhole
    rw [htake, fromLeBytes_length hlen]
    right
    rw [if_pos]
    rw [List.length_drop]
    omega

/-- A stream that stops early stops inside its first frame or behind it. -/
theorem strictPrefix_append {first : List UInt8} (h : StrictPrefix short (first ++ rest)) :
    StrictPrefix short first ∨ ∃ later, short = first ++ later ∧ StrictPrefix later rest := by
  obtain ⟨hpre, hne⟩ := h
  rcases List.prefix_or_prefix_of_prefix hpre
    (List.prefix_append first rest) with hin | ⟨later, rfl⟩
  · by_cases heq : short = first
    · refine .inr ⟨[], by rw [heq, List.append_nil], List.nil_prefix, ?_⟩
      rintro rfl
      exact hne (by rw [heq, List.append_nil])
    · exact .inl ⟨hin, heq⟩
  · refine .inr ⟨later, rfl, (List.prefix_append_right_inj first).mp hpre, ?_⟩
    rintro rfl
    exact hne rfl

end

/-! ## Records that show where they end -/

section
variable {α : Type} {P : α → Prop} {encode : α → List UInt8}

/-- Two streams that start with different records differ. -/
def Delimits (P : α → Prop) (encode : α → List UInt8) : Prop :=
  ∀ ⦃a b : α⦄ ⦃r r' : List UInt8⦄, P a → P b → encode a ++ r = encode b ++ r' → a = b ∧ r = r'

theorem delimits_fixed (w : Nat) : Delimits (fun bytes : List UInt8 => bytes.length = w) id :=
  fun _ _ _ _ ha hb h => List.append_inj h (ha.trans hb.symm)

theorem delimits_word (w : Nat) : Delimits (· < 256 ^ w) (toLeBytes w) := by
  intro a b r r' ha hb h
  obtain ⟨hword, hrest⟩ := List.append_inj h (by rw [length_toLeBytes, length_toLeBytes])
  refine ⟨?_, hrest⟩
  rw [← fromLeBytes_toLeBytes ha, hword, fromLeBytes_toLeBytes hb]

/-- A length field in front of that many bytes. -/
theorem delimits_blob (w : Nat) : Delimits (fun bytes : List UInt8 => bytes.length < 256 ^ w)
    (fun bytes => toLeBytes w bytes.length ++ bytes) := by
  intro a b r r' ha hb h
  rw [List.append_assoc, List.append_assoc] at h
  obtain ⟨hlength, hrest⟩ := delimits_word w ha hb h
  exact List.append_inj hrest hlength

theorem Delimits.flatMap_inj (h : Delimits P encode) (hne : ∀ a, encode a ≠ []) {as bs : List α}
    (ha : ∀ a ∈ as, P a) (hb : ∀ b ∈ bs, P b) (heq : as.flatMap encode = bs.flatMap encode) :
    as = bs := by
  induction as generalizing bs with
  | nil =>
    cases bs with
    | nil => rfl
    | cons b bs =>
      rw [List.flatMap_nil, List.flatMap_cons] at heq
      exact absurd (List.append_eq_nil_iff.mp heq.symm).1 (hne b)
  | cons a as ih =>
    cases bs with
    | nil =>
      rw [List.flatMap_nil, List.flatMap_cons] at heq
      exact absurd (List.append_eq_nil_iff.mp heq).1 (hne a)
    | cons b bs =>
      rw [List.flatMap_cons, List.flatMap_cons] at heq
      obtain ⟨rfl, hrest⟩ := h (ha a List.mem_cons_self) (hb b List.mem_cons_self) heq
      rw [ih (fun x hx => ha x (List.mem_cons_of_mem _ hx))
        (fun x hx => hb x (List.mem_cons_of_mem _ hx)) hrest]

end
end Kit

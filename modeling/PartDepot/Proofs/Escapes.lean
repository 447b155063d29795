import PartDepot.Proofs.Stores
import PartDepot.Url.Percent

/-!
# Escapes

A text whose percent signs are escaped is decoded to itself, and nothing in an encoded text asks to
be encoded again, unless the percent sign itself does.
-/

namespace PartDepot.Percent

variable {escaped : Char → Bool} {s : List Char}

/-! ## Bytes -/

theorem toList_loop (b : ByteArray) (i : Nat) (r : List UInt8) :
    ByteArray.toList.loop b i r = r.reverse ++ b.data.toList.drop i := by
  fun_induction ByteArray.toList.loop b i r with
  | case1 i r hlt ih =>
      have hi : i < b.data.toList.length := hlt
      have hget : b.get! i = b.data.toList[i] := getElem!_pos b.data i hlt
      rw [ih, List.drop_eq_getElem_cons hi, hget]
      simp
  | case2 i r hge =>
      have hi : b.data.toList.length ≤ i := Nat.not_lt.mp hge
      rw [List.drop_eq_nil_of_le hi, List.append_nil]

theorem bytes_eq (c : Char) : bytes c = String.utf8EncodeChar c := by
  have hdata : (String.singleton c).toUTF8.data.toList = String.utf8EncodeChar c := by
    have hone : String.singleton c = String.ofList [c] := String.toList_inj.mp (by simp)
    rw [hone, String.toUTF8_eq_toByteArray, String.toByteArray_ofList, List.utf8Encode_singleton,
      List.toList_data_toByteArray]
  rw [bytes, ByteArray.toList, toList_loop, hdata]
  rfl

theorem fromUTF8?_flatMap_bytes (s : List Char) :
    String.fromUTF8? ⟨(s.flatMap bytes).toArray⟩ = some (String.ofList s) := by
  have hbytes : (⟨(s.flatMap bytes).toArray⟩ : ByteArray) = (String.ofList s).toUTF8 := by
    rw [funext bytes_eq, String.toUTF8_eq_toByteArray, String.toByteArray_ofList, List.utf8Encode]
    apply ByteArray.ext
    apply Array.toList_inj.mp
    rw [List.toList_data_toByteArray]
  rw [hbytes, Cache.fromUTF8?_toUTF8]

theorem flatMap_bytes_of_fromUTF8? {bs : List UInt8} {text : String}
    (h : String.fromUTF8? ⟨bs.toArray⟩ = some text) : text.toList.flatMap bytes = bs := by
  unfold String.fromUTF8? at h
  split at h
  · have hbytes : text.toByteArray = ⟨bs.toArray⟩ := by
      rw [← Option.some.inj h]
      rfl
    have htext := congrArg String.toByteArray (String.ofList_toList (s := text))
    rw [String.toByteArray_ofList, List.utf8Encode, hbytes] at htext
    have hdata := congrArg (fun b => b.data.toList) htext
    simpa [List.toList_data_toByteArray, funext bytes_eq] using hdata
  · simp at h

theorem high_of_mem_bytes {d : Char} (hd : 0x80 ≤ d.toNat) {b : UInt8} (h : b ∈ bytes d) :
    0x80 ≤ b.toNat := by
  have hcode : d.val.toNat = d.toNat := rfl
  have hlow : ¬d.toNat ≤ 0x7f := by omega
  rw [bytes_eq, String.utf8EncodeChar, hcode, if_neg hlow] at h
  split at h
  · simp only [List.mem_cons, List.not_mem_nil, or_false] at h
    rcases h with rfl | rfl <;> rw [UInt8.toNat_ofNat'] <;> omega
  · split at h
    · simp only [List.mem_cons, List.not_mem_nil, or_false] at h
      rcases h with rfl | rfl | rfl <;> rw [UInt8.toNat_ofNat'] <;> omega
    · simp only [List.mem_cons, List.not_mem_nil, or_false] at h
      rcases h with rfl | rfl | rfl | rfl <;> rw [UInt8.toNat_ofNat'] <;> omega

theorem bytes_ascii {c : Char} (hc : c.toNat < 0x80) : bytes c = [UInt8.ofNat c.toNat] := by
  have hcode : c.val.toNat = c.toNat := rfl
  have hlow : c.toNat ≤ 0x7f := by omega
  rw [bytes_eq, String.utf8EncodeChar, hcode, if_pos hlow]

/-- An ASCII character is one byte, and no other character has that byte. -/
theorem mem_of_mem_flatMap_bytes {c : Char} (hc : c.toNat < 0x80)
    (h : UInt8.ofNat c.toNat ∈ s.flatMap bytes) : c ∈ s := by
  have hvalue : (UInt8.ofNat c.toNat).toNat = c.toNat := by
    rw [UInt8.toNat_ofNat']
    omega
  obtain ⟨d, hd, hmem⟩ := List.mem_flatMap.mp h
  by_cases hlow : d.toNat < 0x80
  · rw [bytes_ascii hlow, List.mem_singleton] at hmem
    have hcode := congrArg UInt8.toNat hmem
    rw [hvalue, UInt8.toNat_ofNat', Nat.mod_eq_of_lt (by omega)] at hcode
    exact Char.toNat_inj.mp hcode ▸ hd
  · have := high_of_mem_bytes (by omega) hmem
    omega

theorem flatMap_bytes_injective {s t : List Char} (h : s.flatMap bytes = t.flatMap bytes) :
    s = t := by
  have htext := fromUTF8?_flatMap_bytes s
  rw [h, fromUTF8?_flatMap_bytes t] at htext
  exact (String.ofList_injective (Option.some.inj htext)).symm

/-! ## Decoding -/

theorem decode_encodeByte (b : UInt8) (rest : List Char) :
    decode (encodeByte b ++ rest) = b :: decode rest := by
  have hb := b.toNat_lt
  have hvalue : b.toNat / 16 * 16 + b.toNat % 16 = b.toNat := by omega
  simp [encodeByte, decode, Text.hexValue?_upperHexDigit (show b.toNat / 16 < 16 by omega),
    Text.hexValue?_upperHexDigit (show b.toNat % 16 < 16 by omega), hvalue]

theorem decode_cons {c : Char} (hc : c ≠ '%') (rest : List Char) :
    decode (c :: rest) = bytes c ++ decode rest := by
  rw [decode]
  rintro a b rest rfl
  exact absurd rfl hc

theorem decode_eq_flatMap (hsign : '%' ∉ s) : decode s = s.flatMap bytes := by
  induction s with
  | nil => rfl
  | cons c s ih =>
      obtain ⟨hc, hs⟩ := List.ne_and_not_mem_of_not_mem_cons hsign
      rw [decode_cons (Ne.symm hc), ih hs, List.flatMap_cons]

/-- A character that is no part of an escape stands for itself at the end of a text. -/
theorem decode_concat {c : Char} (hc : Text.hexValue? c = none) (s : List Char) :
    decode (s ++ [c]) = decode s ++ bytes c := by
  fun_induction decode s with
  | case1 a b rest x y hy hx ih => simp [decode, hx, hy, ih]
  | case2 a b rest hnone ih =>
      rw [List.cons_append, List.cons_append, List.cons_append, decode]
      split
      · next x y hx hy => exact absurd hy (hnone x y hx)
      · rw [← List.cons_append, ← List.cons_append, ih, List.append_assoc]
  | case3 d rest hshort ih =>
      by_cases hd : d = '%'
      · subst hd
        match rest, hshort with
        | [], _ => simp [decode]
        | [a], _ =>
          rw [List.singleton_append] at ih
          rw [List.cons_append, List.singleton_append, decode, hc, ih]
          simp
        | a :: b :: more, hshort => exact absurd rfl (hshort a b more rfl)
      · rw [List.cons_append, decode_cons hd, ih, List.append_assoc]
  | case4 => simp [decode]

/-- A blank at the end of a text is in what the text stands for. -/
theorem mem_of_decodeText_concat {c : Char} (hc : Text.hexValue? c = none) (hlow : c.toNat < 0x80)
    {text : String} (h : decodeText (s ++ [c]) = some text) : c ∈ text.toList := by
  have hbytes := flatMap_bytes_of_fromUTF8? h
  rw [decode_concat hc, bytes_ascii hlow] at hbytes
  apply mem_of_mem_flatMap_bytes hlow
  rw [hbytes]
  simp

/-- A text without escapes stands for itself. -/
theorem decodeText_of_not_mem (hsign : '%' ∉ s) : decodeText s = some (String.ofList s) := by
  rw [decodeText, decode_eq_flatMap hsign, fromUTF8?_flatMap_bytes]

theorem decode_encodeChar (hsign : escaped '%' = true) (c : Char) (rest : List Char) :
    decode (encodeChar escaped c ++ rest) = bytes c ++ decode rest := by
  unfold encodeChar
  split
  · induction bytes c with
    | nil => rfl
    | cons b bs ih => rw [List.flatMap_cons, List.append_assoc, decode_encodeByte, ih]; rfl
  · next hplain =>
    apply decode_cons
    rintro rfl
    simp [hsign] at hplain

theorem decode_encode (hsign : escaped '%' = true) (s : List Char) :
    decode (encode escaped s) = s.flatMap bytes := by
  induction s with
  | nil => rfl
  | cons c s ih =>
      unfold encode at ih ⊢
      rw [List.flatMap_cons, decode_encodeChar hsign, ih, List.flatMap_cons]

/-- An encoded text is decoded to the text. -/
theorem decodeText_encode (hsign : escaped '%' = true) (s : List Char) :
    decodeText (encode escaped s) = some (String.ofList s) := by
  rw [decodeText, decode_encode hsign, fromUTF8?_flatMap_bytes]

/-! ## Encoding -/

/-- Whether a character stands for itself in an encoded text. -/
def Plain (escaped : Char → Bool) (c : Char) : Prop :=
  0x20 ≤ c.toNat ∧ c.toNat < 0x7F ∧ escaped c = false

theorem encodeChar_of_plain {c : Char} (h : Plain escaped c) : encodeChar escaped c = [c] := by
  obtain ⟨hlow, hhigh, hset⟩ := h
  unfold encodeChar
  rw [if_neg]
  simp [hset]
  omega

theorem encode_of_plain (h : ∀ c ∈ s, Plain escaped c) : encode escaped s = s := by
  induction s with
  | nil => rfl
  | cons c s ih =>
      unfold encode at ih ⊢
      rw [List.flatMap_cons, encodeChar_of_plain (h c List.mem_cons_self),
        ih fun d hd => h d (List.mem_cons_of_mem c hd)]
      rfl

theorem encode_ne_nil (h : s ≠ []) : encode escaped s ≠ [] := by
  obtain ⟨c, s, rfl⟩ := List.exists_cons_of_ne_nil h
  have hchar : encodeChar escaped c ≠ [] := by
    unfold encodeChar
    split
    · obtain ⟨b, bs, hbytes⟩ := List.exists_cons_of_ne_nil (String.utf8EncodeChar_ne_nil (c := c))
      simp [bytes_eq, hbytes, encodeByte]
    · exact List.cons_ne_nil c []
  unfold encode
  simp [hchar]

theorem encode_injective (hsign : escaped '%' = true) {t : List Char}
    (h : encode escaped s = encode escaped t) : s = t := by
  apply flatMap_bytes_injective
  rw [← decode_encode hsign, ← decode_encode hsign, h]

/-- The characters of an escape. -/
def IsEscape (c : Char) : Prop := c = '%' ∨ ∃ d < 16, c = Text.upperHexDigit d

instance (c : Char) : Decidable (IsEscape c) := inferInstanceAs (Decidable (_ ∨ _))

theorem mem_encode {c : Char} (h : c ∈ encode escaped s) :
    c ∈ s ∧ Plain escaped c ∨ IsEscape c := by
  obtain ⟨d, hd, hc⟩ := List.mem_flatMap.mp h
  unfold encodeChar at hc
  split at hc
  · obtain ⟨b, -, hb⟩ := List.mem_flatMap.mp hc
    have hlt := b.toNat_lt
    simp only [encodeByte, List.mem_cons, List.not_mem_nil, or_false] at hb
    rcases hb with rfl | rfl | rfl
    · exact .inr (.inl rfl)
    · exact .inr (.inr ⟨_, by omega, rfl⟩)
    · exact .inr (.inr ⟨_, by omega, rfl⟩)
  · next hplain =>
    obtain rfl := List.mem_singleton.mp hc
    simp only [Bool.or_eq_true, decide_eq_true_eq, not_or, Bool.not_eq_true] at hplain
    exact .inl ⟨hd, by omega, by omega, hplain.2⟩

theorem not_mem_encode {d : Char} (hset : escaped d = true) (hd : ¬IsEscape d) :
    d ∉ encode escaped s := fun hmem => by
  rcases mem_encode hmem with ⟨-, hplain⟩ | hescape
  · simp [hplain.2.2] at hset
  · exact hd hescape

/-- A set that no character of an escape is in. -/
def Spares (escaped : Char → Bool) : Prop := ∀ c, IsEscape c → escaped c = false

theorem spares_of_range (hsign : escaped '%' = false)
    (hdigits : ∀ d ∈ List.range 16, escaped (Text.upperHexDigit d) = false) : Spares escaped := by
  rintro c (rfl | ⟨d, hd, rfl⟩)
  · exact hsign
  · exact hdigits d (List.mem_range.mpr hd)

theorem spares_path : Spares path := spares_of_range (by decide) (by decide)

theorem spares_userinfo : Spares userinfo := spares_of_range (by decide) (by decide)

theorem IsEscape.plain {c : Char} (h : IsEscape c) (hspares : Spares escaped) :
    Plain escaped c := by
  have hcode : 0x20 ≤ c.toNat ∧ c.toNat < 0x7F := by
    rcases h with rfl | ⟨d, hd, rfl⟩
    · decide
    · have all : ∀ e ∈ List.range 16,
          0x20 ≤ (Text.upperHexDigit e).toNat ∧ (Text.upperHexDigit e).toNat < 0x7F := by decide
      exact all d (List.mem_range.mpr hd)
  exact ⟨hcode.1, hcode.2, hspares c h⟩

/-- What is encoded for a set is encoded for a smaller one, if that has no escape to encode. -/
theorem encode_encode {inner : Char → Bool} (hspares : Spares escaped)
    (hle : ∀ c, escaped c = true → inner c = true) (s : List Char) :
    encode escaped (encode inner s) = encode inner s := by
  refine encode_of_plain fun c hc => ?_
  rcases mem_encode hc with ⟨-, hlow, hhigh, hinner⟩ | hescape
  · refine ⟨hlow, hhigh, ?_⟩
    cases houter : escaped c with
    | false => rfl
    | true => simp [hle c houter] at hinner
  · exact hescape.plain hspares

end PartDepot.Percent

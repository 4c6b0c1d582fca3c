import LeaseChain.Text.Utf8

/-!
# Texts and their bytes

A text and its bytes in UTF-8 determine each other: `Utf8.decode` undoes `Bytes.ofText` and takes
nothing but the bytes of texts.
-/

namespace LeaseChain

theorem Bytes.length_ofText (text : String) : (Bytes.ofText text).length = text.utf8ByteSize := by
  rw [ofText, Array.length_toList]
  rfl

/-- `decode` gives a text back from its bytes. -/
theorem Utf8.decode_ofText (text : String) : decode (Bytes.ofText text) = .ok text := by
  have hbytes : ByteArray.mk (Bytes.ofText text).toArray = text.toByteArray := by
    simp only [Bytes.ofText, Array.toArray_toList]
  have hread : String.fromUTF8? text.toByteArray = some text := by
    rw [String.fromUTF8?, dif_pos text.isValidUTF8]
    rfl
  simp only [decode, hbytes, hread]

/-- `ofText` gives the bytes back that decode to a text. -/
theorem Utf8.ofText_of_decode {bytes : Bytes} {text : String} (h : decode bytes = .ok text) :
    Bytes.ofText text = bytes := by
  simp only [decode, String.fromUTF8?] at h
  split at h
  · rename_i found hfound
    simp only [Except.ok.injEq] at h
    subst h
    split at hfound
    · simp only [Option.some.injEq] at hfound
      subst hfound
      simp only [Bytes.ofText, String.fromUTF8]
    · cases hfound
  · cases h

/-- `ofText` tells texts apart. -/
theorem Bytes.ofText_injective {s t : String} (h : ofText s = ofText t) : s = t := by
  have hdecode := Utf8.decode_ofText s
  rw [h, Utf8.decode_ofText] at hdecode
  exact (Except.ok.inj hdecode).symm

@[simp] theorem Bytes.ofText_append (s t : String) : ofText (s ++ t) = ofText s ++ ofText t := by
  simp [ofText]

end LeaseChain

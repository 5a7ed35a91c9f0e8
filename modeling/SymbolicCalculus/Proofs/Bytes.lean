import SymbolicCalculus.Proofs.Cutting

/-! A text as the bytes that it is kept in. Places are counted in these; a character has one to four of them,
and a blank has one. -/
namespace SymbolicCalculus

def bytes (text : String) : List UInt8 := text.toByteArray.data.toList

theorem bytesOfList (cs : List Char) : bytes (String.ofList cs) = cs.flatMap String.utf8EncodeChar := by
  rw [bytes,String.toByteArray_ofList,List.utf8Encode,List.toList_data_toByteArray]

theorem bytesAppend (s t : String) : bytes (s ++ t) = bytes s ++ bytes t := by
  rw [← String.ofList_toList (s := s),← String.ofList_toList (s := t),← String.ofList_append]
  simp only [bytesOfList,List.flatMap_append]

theorem bytesLength (text : String) : (bytes text).length = text.utf8ByteSize := by
  rw [bytes,Array.length_toList]
  exact String.size_toByteArray

theorem bytesCount (cs : List Char) : (bytes (String.ofList cs)).length = utf8Length cs := by
  rw [bytesLength,utf8LengthBytes]

def blankBytes : List UInt8 := [0x20, 0x09, 0x0a, 0x0d, 0x0c, 0x0b]

theorem blankByte {c : Char} (blank : isBlank c = true) : ∃ b ∈ blankBytes, String.utf8EncodeChar c = [b] := by
  simp only [isBlank,Bool.or_eq_true,beq_iff_eq] at blank
  rcases blank with ((((same | same) | same) | same) | same) | same <;> subst same <;>
    exact ⟨_,by simp [blankBytes],String.utf8EncodeChar_eq_singleton rfl⟩

theorem blanksBytes {cs : List Char} (blanks : ∀ c ∈ cs, isBlank c = true) :
    ∀ b ∈ bytes (String.ofList cs), b ∈ blankBytes := by
  intro b member
  rw [bytesOfList] at member
  obtain ⟨c,inside,part⟩ := List.mem_flatMap.mp member
  obtain ⟨byte,blank,same⟩ := blankByte (blanks c inside)
  rw [same,List.mem_singleton] at part
  exact part ▸ blank

structure Covers (text : String) (span : Span) (part : String) : Prop where
  filled : span.start < span.stop
  starts : String.Pos.Raw.IsValid text ⟨span.start⟩
  stops : String.Pos.Raw.IsValid text ⟨span.stop⟩
  within : (bytes text).extract span.start span.stop = bytes part

theorem boundary {text : String} {before after : List Char} (whole : text.toList = before ++ after) :
    String.Pos.Raw.IsValid text ⟨utf8Length before⟩ := by
  refine String.Pos.Raw.isValid_iff_exists_append.mpr ⟨String.ofList before,String.ofList after,?_,?_⟩
  · rw [← String.ofList_append,← whole,String.ofList_toList]
  · rw [utf8LengthBytes]
    rfl

theorem extractMiddle {κ : Type} (before part after : List κ) :
    (before ++ (part ++ after)).extract before.length (before.length + part.length) = part := by
  simp [List.extract_eq_take_drop]

theorem coversPart {text : String} {before part after : List Char} (whole : text.toList = before ++ (part ++ after))
    (some : part ≠ []) : Covers text ⟨utf8Length before,utf8Length before + utf8Length part⟩ (String.ofList part) := by
  have split : text = String.ofList before ++ (String.ofList part ++ String.ofList after) := by
    rw [← String.ofList_append,← String.ofList_append,← whole,String.ofList_toList]
  refine ⟨?_,boundary whole,?_,?_⟩
  · cases part with
    | nil => exact absurd rfl some
    | cons c rest =>
      have size := c.utf8Size_pos
      simp only [utf8Length]
      omega
  · have behind : text.toList = (before ++ part) ++ after := by rw [whole,List.append_assoc]
    rw [← utf8LengthAppend]
    exact boundary behind
  · rw [split,bytesAppend,bytesAppend,← bytesCount,← bytesCount]
    exact extractMiddle _ _ _

end SymbolicCalculus

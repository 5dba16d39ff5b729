import TapeMachine.Proofs.Image.Grammar

/-! Images as texts. What is printed of an image holds neither blanks nor brackets, and each of its
commas stands between two words, so it has the form of a text that is read as this image. -/

namespace TapeMachine
namespace Image

theorem toList_format (image : Image) :
    image.format.toList = [','].intercalate (image.map fun w => w.decimal.toList) := by
  rw [format, String.toList_intercalate, List.map_map]
  rfl

theorem words_format (w : Word) (ws : List Word) : Words (format (w :: ws)).toList (w :: ws) := by
  rw [toList_format]
  induction ws generalizing w with
  | nil =>
    rw [List.map_singleton, List.intercalate_singleton]
    exact .last w.numeral_decimal
  | cons w' ws ih =>
    rw [List.map_cons, List.map_cons, List.intercalate_cons_cons]
    exact .cons w.numeral_decimal (.comma Text.blank_nil Text.blank_nil) (ih w')

theorem body_format (image : Image) : Body image.format.toList image := by
  cases image with
  | nil => exact .blank Text.blank_nil
  | cons w ws => simpa using Body.words Text.blank_nil (words_format w ws) Text.blank_nil

theorem mem_format {image : Image} {c : Char} (h : c ∈ image.format.toList) :
    c = ',' ∨ ∃ w ∈ image, c ∈ w.decimal.toList := by
  rw [toList_format] at h
  rcases Text.mem_intercalate h with hc | ⟨part, hpart, hc⟩
  · exact .inl (List.mem_singleton.1 hc)
  · obtain ⟨w, hw, rfl⟩ := List.mem_map.1 hpart
    exact .inr ⟨w, hw, hc⟩

theorem isBlank_of_mem_format {image : Image} {c : Char} (h : c ∈ image.format.toList) :
    Text.isBlank c = false := by
  rcases mem_format h with rfl | ⟨w, -, hc⟩
  · rfl
  · have hword := isSeparator_of_mem_numeral w.numeral_decimal hc
    rw [Instruction.isSeparator, Bool.or_eq_false_iff] at hword
    exact hword.1

theorem bracket_notMem_format (image : Image) : '[' ∉ image.format.toList := by
  intro h
  rcases mem_format h with hc | ⟨w, -, hc⟩
  · cases hc
  · exact Word.notMem_decimal w rfl (by decide) hc

theorem read_format_append (image : Image) {blanks : String}
    (h : ∀ c ∈ blanks.toList, Text.isBlank c = true) :
    read (image.format ++ blanks) = .ok image := by
  have htrims : Text.Trims (image.format ++ blanks).toList image.format.toList := by
    refine ⟨⟨[], blanks.toList, Text.blank_nil, h, String.toList_append⟩, ?_, ?_⟩
    · exact fun c hc => isBlank_of_mem_format (List.mem_of_head? hc)
    · exact fun c hc => isBlank_of_mem_format (List.mem_of_getLast? hc)
  have hbare : image.format.toList.head? ≠ some '[' :=
    fun hhead => bracket_notMem_format image (List.mem_of_head? hhead)
  exact (read_eq_ok_iff htrims image).2 ⟨_, .bare hbare, body_format image⟩

theorem read_format (image : Image) : read image.format = .ok image := by
  simpa using @read_format_append image "" (by simp)

/-- Reading undoes printing, so no two images look alike, and printing what was read and reading it
again changes nothing. -/
theorem read_after_format :
    (∀ image : Image, read image.format = .ok image) ∧ Function.Injective format ∧
      ∀ text : String, (read text >>= fun image => read image.format) = read text := by
  refine ⟨read_format, fun image image' h => ?_, fun text => ?_⟩
  · have hread := read_format image
    rw [h, read_format] at hread
    exact (Except.ok.inj hread).symm
  · rcases read text with e | image
    · rfl
    · exact read_format image

end Image
end TapeMachine

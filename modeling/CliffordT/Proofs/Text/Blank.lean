import CliffordT.Text.Blank
import Mathlib.Data.List.DropRight

/-!
Removing the blanks at both ends of a text.

What is left has blanks around it in the text, and a text that neither starts nor ends with a blank is what is left, whatever
blanks stand around it.
-/

namespace CliffordT

/-- Blank characters and nothing else, possibly none. -/
def AllBlank (cs : List Char) : Prop := ∀ c ∈ cs, isBlank c = true

instance : DecidablePred AllBlank := List.decidableBAll _

/-- No blank characters. -/
def NoBlank (cs : List Char) : Prop := ∀ c ∈ cs, isBlank c = false

instance : DecidablePred NoBlank := List.decidableBAll _

/-- The text consists of the given characters with blanks around them. -/
def Surrounded (cs text : List Char) : Prop :=
  ∃ before behind, AllBlank before ∧ AllBlank behind ∧ text = before ++ cs ++ behind

/-- The characters neither start nor end with a blank. -/
structure Trimmed (cs : List Char) : Prop where
  head : ∀ c ∈ cs.head?, isBlank c = false
  last : ∀ c ∈ cs.getLast?, isBlank c = false

theorem AllBlank.append {b b' : List Char} (h : AllBlank b) (h' : AllBlank b') : AllBlank (b ++ b') := by
  intro c hc
  rcases List.mem_append.1 hc with hc | hc
  · exact h c hc
  · exact h' c hc

theorem AllBlank.not_mem {b : List Char} (hb : AllBlank b) {c : Char} (hc : isBlank c = false) : c ∉ b := fun h => by
  rw [hb c h] at hc
  cases hc

namespace Surrounded

theorem refl (cs : List Char) : Surrounded cs cs := ⟨[], [], by decide, by decide, (List.append_nil _).symm⟩

theorem trans {cs ds es : List Char} (h : Surrounded cs ds) (h' : Surrounded ds es) : Surrounded cs es := by
  obtain ⟨b₁, b₂, hb₁, hb₂, rfl⟩ := h
  obtain ⟨b₃, b₄, hb₃, hb₄, rfl⟩ := h'
  exact ⟨b₃ ++ b₁, b₂ ++ b₄, hb₃.append hb₁, hb₂.append hb₄, by simp⟩

theorem append_right (cs : List Char) {b : List Char} (hb : AllBlank b) : Surrounded cs (cs ++ b) :=
  ⟨[], b, by decide, hb, rfl⟩

theorem append_left (cs : List Char) {b : List Char} (hb : AllBlank b) : Surrounded cs (b ++ cs) :=
  ⟨b, [], hb, by decide, (List.append_nil _).symm⟩

theorem length_le {cs text : List Char} (h : Surrounded cs text) : cs.length ≤ text.length := by
  obtain ⟨b, b', -, -, rfl⟩ := h
  simp only [List.length_append]
  omega

end Surrounded

theorem surrounded_trimBlanks (cs : List Char) : Surrounded (trimBlanks cs) cs := by
  refine ⟨cs.takeWhile isBlank, (cs.dropWhile isBlank).rtakeWhile isBlank, fun c => List.mem_takeWhile_imp, fun c => ?_, ?_⟩
  · exact List.mem_rtakeWhile_imp
  · change cs = cs.takeWhile isBlank ++ (cs.dropWhile isBlank).rdropWhile isBlank ++ _
    rw [List.append_assoc, List.rdropWhile_append_rtakeWhile, List.takeWhile_append_dropWhile]

theorem dropWhile_isBlank {b cs : List Char} (hb : AllBlank b) (hcs : ∀ c ∈ cs.head?, isBlank c = false) :
    (b ++ cs).dropWhile isBlank = cs := by
  rw [List.dropWhile_append_of_pos hb]
  cases cs with
  | nil => rfl
  | cons c cs => rw [List.dropWhile_cons_of_neg (by simp [hcs c rfl])]

theorem Surrounded.trimBlanks_eq {cs text : List Char} (h : Surrounded cs text) (hcs : Trimmed cs) : trimBlanks text = cs := by
  obtain ⟨b, b', hb, hb', rfl⟩ := h
  have hrev : AllBlank b'.reverse := fun c hc => hb' c (List.mem_reverse.1 hc)
  have hlast : ∀ c ∈ cs.reverse.head?, isBlank c = false := by
    rw [List.head?_reverse]
    exact hcs.last
  cases cs with
  | nil =>
    rw [trimBlanks, List.append_nil, List.dropWhile_eq_nil_iff.2 (hb.append hb')]
    rfl
  | cons c cs =>
    rw [trimBlanks, List.append_assoc, dropWhile_isBlank hb (by simpa using hcs.head), List.reverse_append,
      dropWhile_isBlank hrev hlast, List.reverse_reverse]

theorem Trimmed.trimBlanks_eq {cs : List Char} (h : Trimmed cs) : trimBlanks cs = cs := (Surrounded.refl cs).trimBlanks_eq h

/-- Text between two texts that do not start or end with a blank. -/
theorem Trimmed.append {a b : List Char} (ha : Trimmed a) (ha' : a ≠ []) (hb : Trimmed b) (hb' : b ≠ []) (cs : List Char) :
    Trimmed (a ++ (cs ++ b)) := by
  constructor
  · rw [List.head?_append_of_ne_nil _ ha']
    exact ha.head
  · rw [← List.append_assoc, List.getLast?_append_of_ne_nil _ hb']
    exact hb.last

theorem NoBlank.trimmed {cs : List Char} (h : NoBlank cs) : Trimmed cs :=
  ⟨fun c hc => h c (List.mem_of_mem_head? hc), fun c hc => h c (List.mem_of_getLast? hc)⟩

end CliffordT

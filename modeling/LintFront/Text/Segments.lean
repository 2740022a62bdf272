/-!
# Texts divided by a character

* `segments`: the parts of a text between separators, empty ones included.
* `segments_append`: a separator between two texts divides their segments.
* `joinSegments`: the text of such parts.
-/

namespace LintFront

/-- The parts of a text between separators. There is one more of them than separators. -/
def segments (separator : Char) : List Char → List (List Char)
  | [] => [[]]
  | c :: rest =>
    if c = separator then [] :: segments separator rest
    else
      match segments separator rest with
      | [] => [[c]]
      | part :: parts => (c :: part) :: parts

/-- The text of parts with a separator between every two of them. -/
def joinSegments (separator : Char) : List (List Char) → List Char
  | [] => []
  | [part] => part
  | part :: parts => part ++ separator :: joinSegments separator parts

/-- The parts of a text between slashes, as texts. -/
def segmentsOf (text : String) : List String := (segments '/' text.toList).map String.ofList

/-- The parts of a text between commas, as texts. -/
def commaParts (text : String) : List String := (segments ',' text.toList).map String.ofList

theorem segments_ne_nil (separator : Char) (cs : List Char) : segments separator cs ≠ [] := by
  cases cs with
  | nil => simp [segments]
  | cons c rest =>
    simp only [segments]
    split
    · simp
    · split <;> simp

theorem segments_append (separator : Char) (a b : List Char) :
    segments separator (a ++ separator :: b) = segments separator a ++ segments separator b := by
  induction a with
  | nil => simp [segments]
  | cons c rest ih =>
    simp only [List.cons_append, segments]
    split
    · simp [ih]
    · rw [ih]
      cases h : segments separator rest with
      | nil => exact absurd h (segments_ne_nil separator rest)
      | cons part parts => simp

theorem joinSegments_segments (separator : Char) (cs : List Char) :
    joinSegments separator (segments separator cs) = cs := by
  induction cs with
  | nil => rfl
  | cons c rest ih =>
    simp only [segments]
    split
    · rename_i h
      subst h
      cases hs : segments c rest with
      | nil => exact absurd hs (segments_ne_nil c rest)
      | cons part parts => simp [joinSegments, ← hs, ih]
    · cases hs : segments separator rest with
      | nil => exact absurd hs (segments_ne_nil separator rest)
      | cons part parts =>
        cases parts with
        | nil => simp_all [joinSegments]
        | cons p ps => simp_all [joinSegments]

end LintFront

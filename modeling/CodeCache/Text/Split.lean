import CodeCache.Text.CharClass

/-!
# Splitting text

Options, paths and lists of files are texts with separators. Splitting gives one piece more than
there are separators (`length_pieces`), and joining the pieces gives the text back
(`intercalate_pieces`).
-/

namespace CodeCache.Split

def pieces (sep : Char) : List Char → List (List Char)
  | [] => [[]]
  | c :: cs =>
    if c = sep then [] :: pieces sep cs
    else
      match pieces sep cs with
      | [] => [[c]]
      | p :: ps => (c :: p) :: ps

theorem pieces_ne_nil (sep : Char) (cs : List Char) : pieces sep cs ≠ [] := by
  cases cs with
  | nil => simp [pieces]
  | cons c cs =>
    simp only [pieces]
    split
    · simp
    · split <;> simp

theorem length_pieces (sep : Char) (cs : List Char) :
    (pieces sep cs).length = cs.count sep + 1 := by
  induction cs with
  | nil => rfl
  | cons c cs ih =>
    by_cases h : c = sep
    · simp [pieces, h, ih]
    · cases hp : pieces sep cs with
      | nil => exact absurd hp (pieces_ne_nil sep cs)
      | cons p ps =>
        rw [hp] at ih
        simp only [pieces, h, if_false, hp, List.length_cons] at ih ⊢
        simp [h, ih]

theorem intercalate_pieces (sep : Char) (cs : List Char) :
    [sep].intercalate (pieces sep cs) = cs := by
  induction cs with
  | nil => rfl
  | cons c cs ih =>
    cases hp : pieces sep cs with
    | nil => exact absurd hp (pieces_ne_nil sep cs)
    | cons p ps =>
      rw [hp] at ih
      by_cases h : c = sep
      · subst h
        simp only [pieces, if_true, hp]
        simpa [List.intercalate, List.intersperse] using ih
      · simp only [pieces, h, if_false, hp]
        cases ps with
        | nil => simpa [List.intercalate, List.intersperse] using ih
        | cons q qs => simpa [List.intercalate, List.intersperse] using ih

def fields (sep : Char) (s : String) : List String :=
  (pieces sep s.toList).map String.ofList

def cut? (sep : Char) (s : String) : Option (String × String) :=
  match s.toList.dropWhile (· != sep) with
  | [] => none
  | _ :: rest => some (String.ofList (s.toList.takeWhile (· != sep)), String.ofList rest)

def trim (s : String) : String :=
  let front := s.toList.dropWhile CharClass.isBlank
  String.ofList (front.reverse.dropWhile CharClass.isBlank).reverse

end CodeCache.Split

import CodeCache.Text.Split
import Mathlib.Algebra.Ring.Nat

/-!
# Splitting and joining

Texts that hold no separator are got back by splitting what they are joined to, and a
text is cut at its first separator only.
-/

namespace CodeCache.Split

variable {sep : Char}

theorem pieces_cons_of_ne {c : Char} (h : c ≠ sep) (cs : List Char) :
    pieces sep (c :: cs) = (pieces sep cs).modifyHead (c :: ·) := by
  cases hpieces : pieces sep cs with
  | nil => exact absurd hpieces (pieces_ne_nil sep cs)
  | cons p ps => simp [pieces, h, hpieces]

theorem pieces_eq_splitOn (sep : Char) (cs : List Char) : pieces sep cs = cs.splitOn sep := by
  induction cs with
  | nil => rfl
  | cons c cs ih =>
      rw [List.splitOn_cons_eq_if_modifyHead, ← ih]
      by_cases hc : c = sep
      · simp [pieces, hc]
      · rw [pieces_cons_of_ne hc, if_neg (by simpa using hc)]

theorem not_mem_of_mem_pieces {cs p : List Char} (h : p ∈ pieces sep cs) : sep ∉ p := by
  induction cs generalizing p with
  | nil =>
      cases List.mem_singleton.mp h
      exact List.not_mem_nil
  | cons c cs ih =>
      by_cases hc : c = sep
      · rw [pieces, if_pos hc] at h
        rcases List.mem_cons.mp h with rfl | hrest
        · exact List.not_mem_nil
        · exact ih hrest
      · rw [pieces_cons_of_ne hc] at h
        cases hpieces : pieces sep cs with
        | nil => exact absurd hpieces (pieces_ne_nil sep cs)
        | cons q qs =>
            rw [hpieces] at h ih
            rcases List.mem_cons.mp h with rfl | hrest
            · intro hmem
              rcases List.mem_cons.mp hmem with heq | hmem
              · exact hc heq.symm
              · exact ih List.mem_cons_self hmem
            · exact ih (List.mem_cons_of_mem q hrest)

theorem fields_eq_iff {s : String} {parts : List String} :
    fields sep s = parts ↔ parts ≠ [] ∧ (∀ part ∈ parts, sep ∉ part.toList) ∧
      s = (String.singleton sep).intercalate parts := by
  unfold fields
  constructor
  · rintro rfl
    refine ⟨?_, ?_, ?_⟩
    · simpa using pieces_ne_nil sep s.toList
    · intro part hpart
      obtain ⟨p, hp, rfl⟩ := List.mem_map.mp hpart
      rw [String.toList_ofList]
      exact not_mem_of_mem_pieces hp
    · rw [← String.toList_inj, String.toList_intercalate, List.map_map]
      have hid : String.toList ∘ String.ofList = id := by
        funext cs
        exact String.toList_ofList
      rw [hid, List.map_id, String.toList_singleton, intercalate_pieces]
  · rintro ⟨hne, hfree, rfl⟩
    have hfree' : ∀ cs ∈ parts.map String.toList, sep ∉ cs := by
      intro cs hcs
      obtain ⟨part, hpart, rfl⟩ := List.mem_map.mp hcs
      exact hfree part hpart
    rw [String.toList_intercalate, String.toList_singleton, pieces_eq_splitOn,
      List.splitOn_intercalate sep hfree' (by simpa using hne), List.map_map]
    have hid : String.ofList ∘ String.toList = id := by
      funext s
      exact String.ofList_toList
    rw [hid, List.map_id]

theorem dropWhile_ne_append {front : List Char} (h : sep ∉ front) (rest : List Char) :
    (front ++ sep :: rest).dropWhile (· != sep) = sep :: rest := by
  rw [List.dropWhile_append_of_pos]
  · simp
  · intro c hc
    simpa using fun heq : c = sep => h (heq ▸ hc)

theorem takeWhile_ne_append {front : List Char} (h : sep ∉ front) (rest : List Char) :
    (front ++ sep :: rest).takeWhile (· != sep) = front := by
  rw [List.takeWhile_append_of_pos]
  · simp
  · intro c hc
    simpa using fun heq : c = sep => h (heq ▸ hc)

theorem cut?_append {front : String} (h : sep ∉ front.toList) (rest : String) :
    cut? sep (front ++ (String.singleton sep ++ rest)) = some (front, rest) := by
  unfold cut?
  simp [dropWhile_ne_append h, takeWhile_ne_append h]

theorem cut?_of_not_mem {s : String} (h : sep ∉ s.toList) : cut? sep s = none := by
  have hdrop : s.toList.dropWhile (· != sep) = [] := by
    rw [← List.append_nil s.toList, List.dropWhile_append_of_pos]
    · rfl
    · intro c hc
      simpa using fun heq : c = sep => h (heq ▸ hc)
  unfold cut?
  rw [hdrop]

theorem eq_of_cut? {s front rest : String} (h : cut? sep s = some (front, rest)) :
    s = front ++ (String.singleton sep ++ rest) := by
  by_cases hmem : sep ∈ s.toList
  · obtain ⟨before, after, hs, hfree⟩ := List.eq_append_cons_of_mem hmem
    have hsplit : s = String.ofList before ++ (String.singleton sep ++ String.ofList after) := by
      rw [← String.toList_inj, hs]
      simp
    rw [hsplit, cut?_append (by simpa using hfree)] at h
    cases h
    exact hsplit
  · rw [cut?_of_not_mem hmem] at h
    cases h

end CodeCache.Split

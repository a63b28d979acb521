/-
Dividing a text at a separator: `cut` at the first one only, core's
`List.splitOn` at every one. Each is pinned down by one equivalence: the
parts hold no separator where none may be, and put together again they are
the text.
-/
namespace Versioning.Text

-- ================================================== the first separator

/-- What stands before the first `sep`, and what stands after it; there
is no second part where there is no `sep`. -/
def cut (sep : Char) : List Char → List Char × Option (List Char)
  | [] => ([], none)
  | c :: cs =>
    if c = sep then ([], some cs)
    else
      let parts := cut sep cs
      (c :: parts.1, parts.2)

/-- The second part of a cut, behind its separator. -/
def uncut (sep : Char) : Option (List Char) → List Char
  | none => []
  | some cs => sep :: cs

/-- A cut is the one division whose first part has no separator. -/
theorem cut_eq_iff {sep : Char} {cs before : List Char}
    {after : Option (List Char)} :
    cut sep cs = (before, after) ↔
      sep ∉ before ∧ before ++ uncut sep after = cs := by
  constructor
  · intro h
    induction cs generalizing before with
    | nil => cases h; simp [uncut]
    | cons c cs ih =>
      unfold cut at h
      split at h
      · next hc => cases h; simp [uncut, hc]
      · next hc =>
        cases h
        have := ih rfl
        simp [this.1, this.2, Ne.symm hc]
  · rintro ⟨hbefore, rfl⟩
    induction before with
    | nil => cases after <;> simp [cut, uncut]
    | cons c cs ih =>
      simp only [List.mem_cons, not_or] at hbefore
      simp [cut, Ne.symm hbefore.1, ih hbefore.2]

/-- A text without the separator in front belongs to the first part. -/
theorem cut_append {sep : Char} {cs : List Char} (h : sep ∉ cs)
    (ds : List Char) :
    cut sep (cs ++ ds) = (cs ++ (cut sep ds).1, (cut sep ds).2) := by
  obtain ⟨hsep, hds⟩ := cut_eq_iff.mp (rfl : cut sep ds = (_, _))
  refine cut_eq_iff.mpr ⟨?_, ?_⟩
  · rw [List.mem_append, not_or]
    exact ⟨h, hsep⟩
  · rw [List.append_assoc, hds]

-- ======================================================= all separators

/-- No part between separators holds one. -/
theorem not_mem_of_mem_splitOn {sep : Char} {cs l : List Char}
    (h : l ∈ cs.splitOn sep) : sep ∉ l := by
  by_cases hs : sep ∈ cs
  · obtain ⟨before, after, rfl, hbefore⟩ := List.eq_append_cons_of_mem hs
    rw [List.splitOn_append_cons_self_of_not_mem hbefore] at h
    rcases List.mem_cons.mp h with rfl | h
    · exact hbefore
    · exact not_mem_of_mem_splitOn h
  · rw [List.splitOn_eq_singleton hs] at h
    exact List.mem_singleton.mp h ▸ hs
termination_by cs.length
decreasing_by
  subst_vars
  simp only [List.length_append, List.length_cons]
  omega

/-- The parts between separators are the ones without a separator that
make up the text when they are joined. -/
theorem splitOn_eq_iff {sep : Char} {cs : List Char}
    {parts : List (List Char)} :
    cs.splitOn sep = parts ↔
      parts ≠ [] ∧ (∀ l ∈ parts, sep ∉ l) ∧
        [sep].intercalate parts = cs := by
  constructor
  · rintro rfl
    exact ⟨by simp, fun l h => not_mem_of_mem_splitOn h,
      List.intercalate_splitOn sep⟩
  · rintro ⟨hne, hmem, rfl⟩
    exact List.splitOn_intercalate sep hmem hne

/-- A character of joined parts is the separator or stands in a part. -/
theorem mem_intercalate {sep c : Char} {parts : List (List Char)}
    (h : c ∈ [sep].intercalate parts) :
    c = sep ∨ ∃ l ∈ parts, c ∈ l := by
  induction parts with
  | nil => simp at h
  | cons l parts ih =>
    cases parts with
    | nil => exact .inr ⟨l, by simp, by simpa using h⟩
    | cons m parts =>
      simp only [List.intercalate_cons_cons, List.mem_append,
        List.mem_singleton] at h
      rcases h with (h | h) | h
      · exact .inr ⟨l, by simp, h⟩
      · exact .inl h
      · rcases ih h with h | ⟨k, hk, h⟩
        · exact .inl h
        · exact .inr ⟨k, List.mem_cons_of_mem l hk, h⟩

end Versioning.Text

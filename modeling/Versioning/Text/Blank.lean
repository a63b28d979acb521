/-
White space, and texts without it at their ends.

The class is the White_Space property of Unicode, wider than that of
ASCII; U+200B and U+FEFF are not in it. What `trim` takes off is blank
(`exists_blanks_trim`), and blanks put around a text make no difference to
it (`trim_append_blanks`).
-/
namespace Versioning.Text

-- =========================================================== the class

/-- The code points with the White_Space property, as closed ranges in
ascending order. -/
def blankRanges : List (Nat × Nat) :=
  [(0x0009, 0x000D), (0x0020, 0x0020), (0x0085, 0x0085), (0x00A0, 0x00A0),
   (0x1680, 0x1680), (0x2000, 0x200A), (0x2028, 0x2029), (0x202F, 0x202F),
   (0x205F, 0x205F), (0x3000, 0x3000)]

/-- White space. -/
def isBlank (c : Char) : Bool :=
  blankRanges.any fun range => range.1 ≤ c.toNat && c.toNat ≤ range.2

/-- Every blank of ASCII is a blank. -/
theorem isBlank_of_isWhitespace {c : Char} (h : c.isWhitespace = true) :
    isBlank c = true := by
  simp only [Char.isWhitespace, Bool.or_eq_true, decide_eq_true_eq] at h
  rcases h with ((rfl | rfl) | rfl) | rfl <;> decide

/-- A run of blanks, possibly an empty one. -/
def Blanks (cs : List Char) : Prop :=
  ∀ c ∈ cs, isBlank c = true

instance (cs : List Char) : Decidable (Blanks cs) :=
  decidable_of_iff (cs.all isBlank = true) List.all_eq_true

theorem blanks_nil : Blanks [] := fun _ hc => absurd hc List.not_mem_nil

theorem Blanks.append {a b : List Char} (ha : Blanks a) (hb : Blanks b) :
    Blanks (a ++ b) :=
  List.forall_mem_append.mpr ⟨ha, hb⟩

-- ============================================================ trimming

/-- The text without the blanks it begins with. -/
def trimStart (cs : List Char) : List Char :=
  cs.dropWhile isBlank

/-- The text without the blanks it ends with. -/
def trimEnd (cs : List Char) : List Char :=
  (cs.reverse.dropWhile isBlank).reverse

/-- The text without the blanks it begins and ends with. -/
def trim (cs : List Char) : List Char :=
  trimEnd (trimStart cs)

/-- What is taken off the beginning is blank. -/
theorem exists_blanks_trimStart (cs : List Char) :
    ∃ a, Blanks a ∧ cs = a ++ trimStart cs :=
  ⟨cs.takeWhile isBlank, List.all_eq_true.mp List.all_takeWhile,
    List.takeWhile_append_dropWhile.symm⟩

/-- What is taken off the end is blank. -/
theorem exists_blanks_trimEnd (cs : List Char) :
    ∃ b, Blanks b ∧ cs = trimEnd cs ++ b := by
  obtain ⟨a, ha, h⟩ := exists_blanks_trimStart cs.reverse
  refine ⟨a.reverse, fun c hc => ha c (List.mem_reverse.mp hc), ?_⟩
  have := congrArg List.reverse h
  rwa [List.reverse_reverse, List.reverse_append] at this

/-- What is taken off the end is not the beginning of the rest. -/
theorem mem_head?_of_trimEnd {cs : List Char} {c : Char}
    (hc : c ∈ (trimEnd cs).head?) : c ∈ cs.head? := by
  obtain ⟨b, -, hcs⟩ := exists_blanks_trimEnd cs
  rw [hcs, List.head?_append, Option.mem_def.mp hc]
  rfl

/-- What is taken off the ends is blank. -/
theorem exists_blanks_trim (cs : List Char) :
    ∃ a b, Blanks a ∧ Blanks b ∧ cs = a ++ trim cs ++ b := by
  obtain ⟨a, ha, h⟩ := exists_blanks_trimStart cs
  obtain ⟨b, hb, h'⟩ := exists_blanks_trimEnd (trimStart cs)
  refine ⟨a, b, ha, hb, ?_⟩
  rw [List.append_assoc]
  exact h' ▸ h

/-- Blanks in front make no difference. -/
theorem trimStart_append_blanks {a : List Char} (ha : Blanks a)
    (cs : List Char) : trimStart (a ++ cs) = trimStart cs :=
  List.dropWhile_append_of_pos ha

/-- Blanks behind make no difference. -/
theorem trimEnd_append_blanks {b : List Char} (hb : Blanks b)
    (cs : List Char) : trimEnd (cs ++ b) = trimEnd cs := by
  unfold trimEnd
  rw [List.reverse_append, List.dropWhile_append_of_pos]
  exact fun c hc => hb c (List.mem_reverse.mp hc)

theorem trimStart_cons_of_no_blank {c : Char} (h : isBlank c = false)
    (cs : List Char) : trimStart (c :: cs) = c :: cs :=
  List.dropWhile_cons_of_neg (by simp [h])

/-- Blanks at the beginning end where other characters begin. -/
theorem trimStart_append_of_head? {ds : List Char}
    (h : ∀ c ∈ ds.head?, isBlank c = false) (cs : List Char) :
    trimStart (cs ++ ds) = trimStart cs ++ ds := by
  unfold trimStart
  rw [List.dropWhile_append]
  cases hcs : cs.dropWhile isBlank with
  | cons c rest => rfl
  | nil =>
    cases ds with
    | nil => rfl
    | cons d ds => exact List.dropWhile_cons_of_neg (by simp [h d rfl])

/-- Blanks at the end begin where other characters end. -/
theorem trimEnd_append_of_getLast? {cs : List Char}
    (h : ∀ c ∈ cs.getLast?, isBlank c = false) (ds : List Char) :
    trimEnd (cs ++ ds) = cs ++ trimEnd ds := by
  have hhead : ∀ c ∈ cs.reverse.head?, isBlank c = false := by
    rwa [List.head?_reverse]
  have hstart := trimStart_append_of_head? hhead ds.reverse
  unfold trimStart at hstart
  rw [trimEnd, List.reverse_append, hstart, List.reverse_append,
    List.reverse_reverse]
  rfl

theorem trimStart_of_head? {cs : List Char}
    (h : ∀ c ∈ cs.head?, isBlank c = false) : trimStart cs = cs :=
  trimStart_append_of_head? h []

theorem trimEnd_of_getLast? {cs : List Char}
    (h : ∀ c ∈ cs.getLast?, isBlank c = false) : trimEnd cs = cs := by
  have htrim := trimEnd_append_of_getLast? h []
  rw [List.append_nil] at htrim
  exact htrim.trans (List.append_nil cs)

/-- A text that does not end in a blank has blanks at its beginning only. -/
theorem trim_of_getLast? {cs : List Char}
    (h : ∀ c ∈ cs.getLast?, isBlank c = false) : trim cs = trimStart cs := by
  obtain ⟨a, -, hcs⟩ := exists_blanks_trimStart cs
  refine trimEnd_of_getLast? fun c hc => h c ?_
  rw [hcs, List.getLast?_append, Option.mem_def.mp hc]
  rfl

/-- A text that ends in characters other than blanks keeps its end. -/
theorem trimEnd_append_of_no_blank {cs : List Char} (hne : cs ≠ [])
    (h : ∀ c ∈ cs, isBlank c = false) (ds : List Char) :
    trimEnd (ds ++ cs) = ds ++ cs := by
  refine trimEnd_of_getLast? fun c hc => ?_
  rw [List.getLast?_append, List.getLast?_eq_some_getLast hne] at hc
  obtain rfl := Option.some.inj hc
  exact h _ (List.getLast_mem hne)

/-- Characters other than blanks keep their place: what follows them is
trimmed at its end only. -/
theorem trim_append {lead cs : List Char} (hlead : Blanks lead)
    (hne : cs ≠ []) (h : ∀ c ∈ cs, isBlank c = false) (ds : List Char) :
    trim (lead ++ cs ++ ds) = cs ++ trimEnd ds := by
  obtain ⟨c, rest, rfl⟩ := List.exists_cons_of_ne_nil hne
  have hlast : ∀ d ∈ (c :: rest).getLast?, isBlank d = false :=
    fun d hd => h d (List.mem_of_getLast? hd)
  rw [trim, List.append_assoc, trimStart_append_blanks hlead,
    List.cons_append, trimStart_cons_of_no_blank (h c List.mem_cons_self),
    ← List.cons_append, trimEnd_append_of_getLast? hlast]

/-- Blanks around a text make no difference. -/
theorem trim_append_blanks {a b : List Char} (ha : Blanks a) (hb : Blanks b)
    (cs : List Char) : trim (a ++ cs ++ b) = trim cs := by
  unfold trim
  rw [List.append_assoc, trimStart_append_blanks ha]
  obtain ⟨lead, hlead, hcs⟩ := exists_blanks_trimStart cs
  cases h : trimStart cs with
  | nil =>
    rw [h, List.append_nil] at hcs
    subst hcs
    rw [trimStart_append_blanks hlead, ← List.append_nil b,
      trimStart_append_blanks hb]
    rfl
  | cons c rest =>
    have : trimStart (cs ++ b) = c :: rest ++ b := by
      unfold trimStart at h ⊢
      rw [List.dropWhile_append, h]
      rfl
    rw [this, trimEnd_append_blanks hb]

/-- A text without blanks is trimmed. -/
theorem trim_of_no_blank {cs : List Char}
    (h : ∀ c ∈ cs, isBlank c = false) : trim cs = cs := by
  rw [trim_of_getLast? fun c hc => h c (List.mem_of_getLast? hc)]
  exact trimStart_of_head? fun c hc => h c (List.mem_of_head? hc)

end Versioning.Text

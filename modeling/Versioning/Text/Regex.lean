/-
Regular expressions with named groups.

`Matches` says which texts an expression describes and what its groups
hold there. `ways` is the search of a backtracking matcher: the ways to
match a beginning of a text, in the order in which they are tried, and
`captures` takes the first of them that reaches the end. The search finds
the matches and nothing else (`mem_ways_iff`).
-/
namespace Versioning.Text

/-- A regular expression over characters. -/
inductive Regex where
  /-- The empty text. -/
  | empty
  /-- One character of a class. -/
  | one (isIn : Char → Bool)
  /-- Two expressions, one after the other. -/
  | seq (e f : Regex)
  /-- Either of two expressions, the first one before the second. -/
  | alt (e f : Regex)
  /-- As many rounds of an expression as there are, or else fewer. -/
  | star (e : Regex)
  /-- An expression whose text is captured. -/
  | group (name : String) (e : Regex)

namespace Regex

/-- One certain character. -/
def char (c : Char) : Regex := one (· == c)

/-- An expression or, failing that, nothing. -/
def opt (e : Regex) : Regex := alt e empty

-- ============================================================= matches

/-- The texts of the groups that took part in a match. -/
abbrev Groups := List (String × List Char)

/-- The whole text is matched and the groups hold these texts. No round of
a repetition is empty. -/
def Matches : Regex → List Char → Groups → Prop
  | empty, cs, g => cs = [] ∧ g = []
  | one isIn, cs, g => ∃ c, isIn c = true ∧ cs = [c] ∧ g = []
  | seq e f, cs, g => ∃ as bs h k,
      Matches e as h ∧ Matches f bs k ∧ as ++ bs = cs ∧ h ++ k = g
  | alt e f, cs, g => Matches e cs g ∨ Matches f cs g
  | star e, cs, g => ∃ rounds : List (List Char × Groups),
      (∀ r ∈ rounds, r.1 ≠ [] ∧ Matches e r.1 r.2) ∧
        rounds.flatMap Prod.fst = cs ∧ rounds.flatMap Prod.snd = g
  | group name e, cs, g => ∃ h, Matches e cs h ∧ (name, cs) :: h = g

-- ------------------------------------------------- classes of texts

/-- The expression has no groups and matches the texts of a class. -/
def Describes (e : Regex) (isIn : List Char → Prop) : Prop :=
  ∀ cs g, e.Matches cs g ↔ isIn cs ∧ g = []

variable {e f : Regex} {p q : List Char → Prop}

theorem Describes.congr (h : e.Describes p) (hpq : ∀ cs, p cs ↔ q cs) :
    e.Describes q := fun cs g => by
  rw [h, hpq]

theorem describes_one (isIn : Char → Bool) :
    (one isIn).Describes fun cs => ∃ c, isIn c = true ∧ cs = [c] := by
  intro cs g
  simp only [Matches, ← and_assoc, exists_and_right]

theorem describes_char (c : Char) : (char c).Describes (· = [c]) :=
  (describes_one _).congr fun cs => by simp

theorem Describes.alt (he : e.Describes p) (hf : f.Describes q) :
    (alt e f).Describes fun cs => p cs ∨ q cs := by
  intro cs g
  rw [Matches, he, hf, or_and_right]

theorem Describes.seq (he : e.Describes p) (hf : f.Describes q) :
    (seq e f).Describes fun cs => ∃ as bs, p as ∧ q bs ∧ as ++ bs = cs := by
  intro cs g
  constructor
  · intro h
    obtain ⟨as, bs, h, k, has, hbs, hcs, hg⟩ := h
    obtain ⟨hp, rfl⟩ := (he as h).mp has
    obtain ⟨hq, rfl⟩ := (hf bs k).mp hbs
    exact ⟨⟨as, bs, hp, hq, hcs⟩, hg.symm⟩
  · intro h
    obtain ⟨⟨as, bs, has, hbs, hcs⟩, rfl⟩ := h
    exact ⟨as, bs, [], [], (he as []).mpr ⟨has, rfl⟩,
      (hf bs []).mpr ⟨hbs, rfl⟩, hcs, rfl⟩

/-- Rounds of an expression that never matches the empty text. -/
theorem Describes.star (he : e.Describes p) (hne : ∀ cs, p cs → cs ≠ []) :
    (star e).Describes fun cs =>
      ∃ parts : List (List Char), (∀ part ∈ parts, p part) ∧
        parts.flatten = cs := by
  intro cs g
  constructor
  · intro h
    obtain ⟨rounds, hrounds, rfl, rfl⟩ := h
    refine ⟨⟨rounds.map Prod.fst, ?_, List.flatMap_def.symm⟩, ?_⟩
    · intro part hpart
      obtain ⟨r, hr, rfl⟩ := List.mem_map.mp hpart
      exact ((he _ _).mp (hrounds r hr).2).1
    · exact List.flatMap_eq_nil_iff.mpr fun r hr =>
        ((he _ _).mp (hrounds r hr).2).2
  · intro h
    obtain ⟨⟨parts, hparts, rfl⟩, rfl⟩ := h
    refine ⟨parts.map fun part => (part, []), ?_, ?_, ?_⟩
    · intro r hr
      obtain ⟨part, hpart, rfl⟩ := List.mem_map.mp hr
      have hp := hparts part hpart
      exact ⟨hne part hp, (he _ _).mpr ⟨hp, rfl⟩⟩
    · simp [List.flatMap_def, Function.comp_def]
    · simp [List.flatMap_def, Function.comp_def]

theorem describes_star_one (isIn : Char → Bool) :
    (Regex.star (one isIn)).Describes fun cs => ∀ c ∈ cs, isIn c = true := by
  refine ((describes_one isIn).star fun cs h => ?_).congr fun cs => ?_
  · obtain ⟨c, -, rfl⟩ := h
    exact List.cons_ne_nil c []
  · constructor
    · intro h c hc
      obtain ⟨parts, hparts, rfl⟩ := h
      obtain ⟨part, hpart, hmem⟩ := List.mem_flatten.mp hc
      obtain ⟨d, hd, rfl⟩ := hparts part hpart
      rwa [List.mem_singleton.mp hmem]
    · intro h
      refine ⟨cs.map fun c => [c], fun part hpart => ?_,
        List.flatMap_singleton' cs⟩
      obtain ⟨c, hc, rfl⟩ := List.mem_map.mp hpart
      exact ⟨c, h c hc, rfl⟩

-- -------------------------------------------------- families of texts

/-- The matches of the expression are the texts and the groups of a family
of values. -/
def Yields {α : Type} (e : Regex) (isIn : α → Prop) (text : α → List Char)
    (groups : α → Groups) : Prop :=
  ∀ cs g, e.Matches cs g ↔ ∃ a, isIn a ∧ text a = cs ∧ groups a = g

theorem Describes.yields (h : e.Describes p) :
    e.Yields p id fun _ => [] := by
  intro cs g
  rw [h]
  constructor
  · intro hcs
    exact ⟨cs, hcs.1, rfl, hcs.2.symm⟩
  · intro h
    obtain ⟨_, hcs, rfl, rfl⟩ := h
    exact ⟨hcs, rfl⟩

theorem Describes.group (h : e.Describes p) (name : String) :
    (group name e).Yields p id fun cs => [(name, cs)] := by
  intro cs g
  constructor
  · intro h
    obtain ⟨k, hk, rfl⟩ := h
    obtain ⟨hcs, rfl⟩ := (h cs k).mp hk
    exact ⟨cs, hcs, rfl, rfl⟩
  · intro h
    obtain ⟨_, hcs, rfl, rfl⟩ := h
    exact ⟨[], (h _ []).mpr ⟨hcs, rfl⟩, rfl⟩

theorem Yields.seq {α β : Type} {p : α → Prop} {q : β → Prop}
    {text : α → List Char} {text' : β → List Char} {groups : α → Groups}
    {groups' : β → Groups} (he : e.Yields p text groups)
    (hf : f.Yields q text' groups') :
    (seq e f).Yields (fun a : α × β => p a.1 ∧ q a.2)
      (fun a => text a.1 ++ text' a.2)
      (fun a => groups a.1 ++ groups' a.2) := by
  intro cs g
  constructor
  · intro h
    obtain ⟨as, bs, h, k, has, hbs, rfl, rfl⟩ := h
    obtain ⟨a, ha, rfl, rfl⟩ := (he as h).mp has
    obtain ⟨b, hb, rfl, rfl⟩ := (hf bs k).mp hbs
    exact ⟨(a, b), ⟨ha, hb⟩, rfl, rfl⟩
  · intro h
    obtain ⟨⟨a, b⟩, ⟨ha, hb⟩, rfl, rfl⟩ := h
    exact ⟨_, _, _, _, (he _ _).mpr ⟨a, ha, rfl, rfl⟩,
      (hf _ _).mpr ⟨b, hb, rfl, rfl⟩, rfl, rfl⟩

-- ========================================================== the search

/-- A way to match the beginning of a text. -/
@[ext]
structure Way where
  taken : List Char
  groups : Groups
  rest : List Char

/-- A way and what follows it, in every way it does. -/
def Way.extend (w : Way) (follow : List Char → List Way) : List Way :=
  (follow w.rest).map fun v =>
    ⟨w.taken ++ v.taken, w.groups ++ v.groups, v.rest⟩

/-- At most `n` rounds of `step`, none of them empty, more before fewer. -/
def repeated (step : List Char → List Way) : Nat → List Char → List Way
  | 0, cs => [⟨[], [], cs⟩]
  | n + 1, cs =>
    (((step cs).filter fun w => !w.taken.isEmpty).flatMap fun w =>
      w.extend (repeated step n)) ++ [⟨[], [], cs⟩]

/-- The ways to match a beginning of a text, in the order of trial. -/
def ways : Regex → List Char → List Way
  | empty, cs => [⟨[], [], cs⟩]
  | one _, [] => []
  | one isIn, c :: cs => if isIn c then [⟨[c], [], cs⟩] else []
  | seq e f, cs => (ways e cs).flatMap fun w => w.extend (ways f)
  | alt e f, cs => ways e cs ++ ways f cs
  | star e, cs => repeated (ways e) cs.length cs
  | group name e, cs => (ways e cs).map fun w =>
      { w with groups := (name, w.taken) :: w.groups }

/-- What the groups hold in the first match of a whole text. -/
def captures (e : Regex) (cs : List Char) : Option Groups :=
  ((ways e cs).find? fun w => w.rest.isEmpty).map (·.groups)

-- ============================================ the search finds matches

/-- A way that begins `cs` with a match. -/
def Way.Of (w : Way) (e : Regex) (cs : List Char) : Prop :=
  w.taken ++ w.rest = cs ∧ Matches e w.taken w.groups

/-- The second way goes on where the first one stops. -/
def Way.Joins (v w u : Way) : Prop :=
  w.taken ++ u.taken = v.taken ∧ w.groups ++ u.groups = v.groups ∧
    u.rest = v.rest

theorem Way.mem_extend_iff {w v : Way} {follow : List Char → List Way} :
    v ∈ w.extend follow ↔ ∃ u ∈ follow w.rest, v.Joins w u := by
  obtain ⟨taken, groups, rest⟩ := v
  simp only [Way.extend, List.mem_map, Way.mk.injEq, Joins]

theorem Way.of_seq_iff {e f : Regex} {cs : List Char} {v : Way} :
    v.Of (seq e f) cs ↔
      ∃ w u : Way, w.Of e cs ∧ u.Of f w.rest ∧ v.Joins w u := by
  constructor
  · intro h
    obtain ⟨hcs, as, bs, g, k, he, hf, htaken, hgroups⟩ := h
    refine ⟨⟨as, g, bs ++ v.rest⟩, ⟨bs, k, v.rest⟩, ⟨?_, he⟩, ⟨rfl, hf⟩,
      htaken, hgroups, rfl⟩
    rw [← hcs, ← htaken, List.append_assoc]
  · intro h
    obtain ⟨w, u, ⟨hw, he⟩, ⟨hu, hf⟩, htaken, hgroups, hrest⟩ := h
    refine ⟨?_, w.taken, u.taken, w.groups, u.groups, he, hf, htaken,
      hgroups⟩
    rw [← hw, ← hu, ← htaken, ← hrest, List.append_assoc]

/-- A repetition stops, or it goes on behind a round that is not empty. -/
theorem Way.of_star_iff {e : Regex} {cs : List Char} {v : Way} :
    v.Of (star e) cs ↔ v = ⟨[], [], cs⟩ ∨
      ∃ w u : Way, w.Of e cs ∧ w.taken ≠ [] ∧ u.Of (star e) w.rest ∧
        v.Joins w u := by
  constructor
  · intro h
    obtain ⟨hcs, rounds, hrounds, htaken, hgroups⟩ := h
    cases rounds with
    | nil =>
      left
      rw [← htaken] at hcs
      exact Way.ext htaken.symm hgroups.symm hcs
    | cons r rounds =>
      right
      obtain ⟨⟨hne, hr⟩, hrounds⟩ := List.forall_mem_cons.mp hrounds
      refine ⟨⟨r.1, r.2, rounds.flatMap Prod.fst ++ v.rest⟩,
        ⟨rounds.flatMap Prod.fst, rounds.flatMap Prod.snd, v.rest⟩,
        ⟨?_, hr⟩, hne, ⟨rfl, rounds, hrounds, rfl, rfl⟩, htaken, hgroups,
        rfl⟩
      rw [← hcs, ← htaken, List.flatMap_cons, List.append_assoc]
  · intro h
    rcases h with rfl | ⟨w, u, ⟨hw, he⟩, hne, ⟨hu, rounds, hrounds, ht, hg⟩,
      htaken, hgroups, hrest⟩
    · exact ⟨rfl, [], by simp⟩
    · refine ⟨?_, (w.taken, w.groups) :: rounds,
        List.forall_mem_cons.mpr ⟨⟨hne, he⟩, hrounds⟩, ?_, ?_⟩
      · rw [← hw, ← hu, ← htaken, ← hrest, List.append_assoc]
      · rw [← htaken, ← ht, List.flatMap_cons]
      · rw [← hgroups, ← hg, List.flatMap_cons]

/-- As many rounds as there are characters are enough, since every round
takes one. -/
theorem mem_repeated_iff {e : Regex} {step : List Char → List Way}
    (hstep : ∀ {cs w}, w ∈ step cs ↔ w.Of e cs) {n : Nat} {cs : List Char}
    (hn : cs.length ≤ n) {v : Way} :
    v ∈ repeated step n cs ↔ v.Of (star e) cs := by
  induction n generalizing cs v with
  | zero =>
    obtain rfl := List.eq_nil_of_length_eq_zero (Nat.le_zero.mp hn)
    rw [repeated, List.mem_singleton, Way.of_star_iff, or_iff_left]
    intro h
    obtain ⟨w, u, ⟨hw, -⟩, hne, -⟩ := h
    exact hne (List.append_eq_nil_iff.mp hw).1
  | succ n ih =>
    have hrest : ∀ {w : Way}, w.Of e cs → w.taken ≠ [] →
        w.rest.length ≤ n := fun {w} hw hne => by
      have hlength := congrArg List.length hw.1
      have hpos := List.length_pos_iff.mpr hne
      rw [List.length_append] at hlength
      omega
    simp only [repeated, List.mem_append, List.mem_flatMap, List.mem_filter,
      List.mem_singleton, Way.mem_extend_iff, hstep, Bool.not_eq_true',
      List.isEmpty_eq_false_iff]
    rw [Way.of_star_iff, or_comm]
    refine or_congr_right ⟨fun h => ?_, fun h => ?_⟩
    · obtain ⟨w, ⟨hw, hne⟩, u, hu, hv⟩ := h
      exact ⟨w, u, hw, hne, (ih (hrest hw hne)).mp hu, hv⟩
    · obtain ⟨w, u, hw, hne, hu, hv⟩ := h
      exact ⟨w, ⟨hw, hne⟩, u, (ih (hrest hw hne)).mpr hu, hv⟩

/-- The search finds every way there is and no other. -/
theorem mem_ways_iff {e : Regex} {cs : List Char} {v : Way} :
    v ∈ ways e cs ↔ v.Of e cs := by
  induction e generalizing cs v with
  | empty =>
    rw [ways, List.mem_singleton]
    constructor
    · rintro rfl
      exact ⟨rfl, rfl, rfl⟩
    · intro h
      obtain ⟨hcs, htaken, hgroups⟩ := h
      rw [htaken] at hcs
      exact Way.ext htaken hgroups hcs
  | one isIn =>
    cases cs with
    | nil =>
      refine iff_of_false List.not_mem_nil fun h => ?_
      obtain ⟨hcs, c, -, htaken, -⟩ := h
      rw [htaken] at hcs
      cases hcs
    | cons c cs =>
      rw [ways, List.mem_ite_nil_right, List.mem_singleton]
      constructor
      · intro h
        obtain ⟨hc, rfl⟩ := h
        exact ⟨rfl, c, hc, rfl, rfl⟩
      · intro h
        obtain ⟨hcs, d, hd, htaken, hgroups⟩ := h
        rw [htaken] at hcs
        obtain ⟨rfl, hrest⟩ := List.cons.inj hcs
        exact ⟨hd, Way.ext htaken hgroups hrest⟩
  | seq e f ihe ihf =>
    simp only [ways, List.mem_flatMap, Way.mem_extend_iff, ihe, ihf,
      Way.of_seq_iff]
    constructor
    · intro h
      obtain ⟨w, hw, u, hu, hv⟩ := h
      exact ⟨w, u, hw, hu, hv⟩
    · intro h
      obtain ⟨w, u, hw, hu, hv⟩ := h
      exact ⟨w, hw, u, hu, hv⟩
  | alt e f ihe ihf =>
    rw [ways, List.mem_append, ihe, ihf]
    exact and_or_left.symm
  | star e ih => exact mem_repeated_iff ih (Nat.le_refl _)
  | group name e ih =>
    simp only [ways, List.mem_map, ih]
    constructor
    · intro h
      obtain ⟨w, ⟨hcs, hw⟩, rfl⟩ := h
      exact ⟨hcs, w.groups, hw, rfl⟩
    · intro h
      obtain ⟨hcs, g, hg, hgroups⟩ := h
      exact ⟨⟨v.taken, g, v.rest⟩, ⟨hcs, hg⟩, Way.ext rfl hgroups rfl⟩

/-- What is captured is held by the groups of a match. -/
theorem matches_of_captures_eq_some {e : Regex} {cs : List Char} {g : Groups}
    (h : captures e cs = some g) : Matches e cs g := by
  obtain ⟨w, hw, rfl⟩ := Option.map_eq_some_iff.mp h
  obtain ⟨hcs, hmatches⟩ := mem_ways_iff.mp (List.mem_of_find?_eq_some hw)
  have hrest : w.rest = [] := by simpa using List.find?_some hw
  rw [hrest, List.append_nil] at hcs
  rwa [hcs] at hmatches

/-- Where there is a match, something is captured. -/
theorem captures_ne_none {e : Regex} {cs : List Char} {g : Groups}
    (h : Matches e cs g) : captures e cs ≠ none := by
  intro hnone
  rw [captures, Option.map_eq_none_iff, List.find?_eq_none] at hnone
  have hmem : ⟨cs, g, []⟩ ∈ ways e cs :=
    mem_ways_iff.mpr ⟨List.append_nil cs, h⟩
  exact hnone _ hmem rfl

end Regex

end Versioning.Text

import VersionDrift.Header.Marker
import VersionDrift.Proofs.Text.Split

/-!
# Occurrences of a marker

An occurrence of a marker stands within one line: its words with blanks between them,
blanks, and a value that runs to the next blank. The value that is found in a text is
the one of the first occurrence, on the first line that has any and leftmost there.
-/

set_option autoImplicit false

namespace VersionDrift

namespace Text

theorem nonblank_of_mem_wordsFrom {open_ t w : Text} (hopen : ∀ c ∈ open_, isBlank c = false)
    (h : w ∈ wordsFrom open_ t) : w ≠ [] ∧ ∀ c ∈ w, isBlank c = false := by
  fun_induction wordsFrom open_ t with
  | case1 => cases h
  | case2 open_ hne =>
    obtain rfl := List.mem_singleton.mp h
    exact ⟨by simpa using hne, fun c hc => hopen c (List.mem_reverse.mp hc)⟩
  | case3 open_ c t hc hempty ih => exact ih (by simp) h
  | case4 open_ c t hc hempty ih =>
    rcases List.mem_cons.mp h with rfl | h
    · exact ⟨by simpa using hempty, fun c hc => hopen c (List.mem_reverse.mp hc)⟩
    · exact ih (by simp) h
  | case5 open_ c t hc ih =>
    exact ih (List.forall_mem_cons.mpr ⟨Bool.eq_false_iff.mpr hc, hopen⟩) h

theorem nonblank_of_mem_words {t w : Text} (h : w ∈ words t) :
    w ≠ [] ∧ ∀ c ∈ w, isBlank c = false :=
  nonblank_of_mem_wordsFrom (by simp) h

theorem isBlank_of_isGap {c : Char} (h : isGap c = true) : isBlank c = true := by
  have hc : c = ' ' ∨ c = '\t' := by simpa [isGap] using h
  rcases hc with rfl | rfl <;> decide

end Text

namespace Marker

def IsGap (t : Text) : Prop := t ≠ [] ∧ ∀ c ∈ t, Text.isGap c = true

/-- The text is the words with blanks between them. -/
inductive Spaced : List Text → Text → Prop
  | none : Spaced [] []
  | one (w : Text) : Spaced [w] w
  | next {w v gap t : Text} {ws : List Text} (hgap : IsGap gap) (h : Spaced (v :: ws) t) :
      Spaced (w :: v :: ws) (w ++ gap ++ t)

/-- The text begins with the words, blanks and the value, which goes on up to a blank. -/
def Begins (words : List Text) (t value : Text) : Prop :=
  ∃ body gap after, t = body ++ gap ++ value ++ after ∧ Spaced words body ∧ IsGap gap ∧
    value ≠ [] ∧ (∀ c ∈ value, Text.isBlank c = false) ∧ ∀ c ∈ after.head?, Text.isBlank c = true

/-- An occurrence in a line, after `before`; `bound` tells whether the start is a place for one. -/
structure Occurs (bound : Bool) (words : List Text) (line before value : Text) : Prop where
  place : match before.getLast? with
    | none => bound = true
    | some c => isIdentifier c = false
  begins : ∃ t, line = before ++ t ∧ Begins words t value

/-- The first occurrence of a text: none on the lines above, and none before it on its own. -/
def First (words : List Text) (t value : Text) : Prop :=
  ∃ above line below before, Text.splitAt '\n' t = above ++ line :: below ∧
    (∀ l ∈ above, ∀ before value, ¬ Occurs true words l before value) ∧
    Occurs true words line before value ∧
    ∀ before' value', Occurs true words line before' value' → before.length ≤ before'.length

def AreWords (words : List Text) : Prop :=
  ∀ w ∈ words, w ≠ [] ∧ ∀ c ∈ w, Text.isBlank c = false

theorem afterGap?_eq_some_iff {t r : Text} : afterGap? t = some r ↔
    ∃ gap, t = gap ++ r ∧ IsGap gap ∧ ∀ c ∈ r.head?, Text.isGap c = false := by
  constructor
  · intro h
    cases t with
    | nil => cases h
    | cons c t =>
      rw [afterGap?] at h
      split at h
      · next hc =>
        obtain rfl := Option.some.inj h
        refine ⟨c :: t.takeWhile Text.isGap, ?_, ⟨by simp, ?_⟩, fun d hd => ?_⟩
        · rw [List.cons_append, List.takeWhile_append_dropWhile]
        · exact List.forall_mem_cons.mpr ⟨hc, List.all_eq_true.mp List.all_takeWhile⟩
        · have hhead := List.head?_dropWhile_not Text.isGap t
          rw [Option.mem_def.mp hd] at hhead
          simpa using hhead
      · cases h
  · rintro ⟨gap, rfl, ⟨hne, hgap⟩, hr⟩
    obtain ⟨c, gap, rfl⟩ := List.exists_cons_of_ne_nil hne
    obtain ⟨hc, hgap⟩ := List.forall_mem_cons.mp hgap
    rw [List.cons_append, afterGap?, if_pos hc, List.dropWhile_append_of_pos hgap]
    cases r with
    | nil => rfl
    | cons d r => rw [List.dropWhile_cons_of_neg (by simp [hr d rfl])]

variable {words : List Text}

theorem Spaced.head {v : Text} {ws : List Text} {t : Text} (h : Spaced (v :: ws) t) :
    ∃ r, t = v ++ r := by
  cases h with
  | one => exact ⟨[], by simp⟩
  | next => exact ⟨_, List.append_assoc ..⟩

theorem Spaced.head_not_isGap {v : Text} {ws : List Text} {t : Text} (h : Spaced (v :: ws) t)
    (hwords : AreWords (v :: ws)) (r : Text) : ∀ c ∈ (t ++ r).head?, Text.isGap c = false := by
  obtain ⟨hne, hv⟩ := hwords v List.mem_cons_self
  obtain ⟨d, u, rfl⟩ := List.exists_cons_of_ne_nil hne
  obtain ⟨s, rfl⟩ := h.head
  intro c hc
  obtain rfl : d = c := Option.some.inj hc
  refine Bool.eq_false_iff.mpr fun hgap => ?_
  have hd := hv d List.mem_cons_self
  rw [Text.isBlank_of_isGap hgap] at hd
  cases hd

theorem afterWords?_eq_some_iff (hwords : AreWords words) {t r : Text} :
    afterWords? words t = some r ↔ ∃ body, t = body ++ r ∧ Spaced words body := by
  constructor
  · intro h
    induction words generalizing t with
    | nil => exact ⟨[], Option.some.inj h, .none⟩
    | cons w ws ih =>
      cases ws with
      | nil => exact ⟨w, Text.after?_eq_some.mp h, .one w⟩
      | cons v ws =>
        obtain ⟨s, hs, h⟩ := Option.bind_eq_some_iff.mp h
        obtain ⟨u, hu, h⟩ := Option.bind_eq_some_iff.mp h
        obtain ⟨gap, hcut, hgap, -⟩ := afterGap?_eq_some_iff.mp hu
        obtain ⟨body, hbody, hspaced⟩ := ih (fun w hw => hwords w (List.mem_cons_of_mem _ hw)) h
        refine ⟨w ++ gap ++ body, ?_, .next hgap hspaced⟩
        rw [Text.after?_eq_some.mp hs, hcut, hbody]
        simp only [List.append_assoc]
  · rintro ⟨body, rfl, hspaced⟩
    induction hspaced with
    | none => rfl
    | one w => exact Text.after?_eq_some.mpr rfl
    | @next w v gap t ws hgap hspaced ih =>
      have hrest : AreWords (v :: ws) := fun w hw => hwords w (List.mem_cons_of_mem _ hw)
      have hw : Text.after? w (w ++ gap ++ t ++ r) = some (gap ++ (t ++ r)) :=
        Text.after?_eq_some.mpr (by simp only [List.append_assoc])
      have hafter : afterGap? (gap ++ (t ++ r)) = some (t ++ r) :=
        afterGap?_eq_some_iff.mpr ⟨gap, rfl, hgap, hspaced.head_not_isGap hrest r⟩
      rw [afterWords?, hw, Option.bind_some, hafter, Option.bind_some, ih hrest]
      simp

theorem valueHere?_eq_some_iff (hwords : AreWords words) {t value : Text} :
    valueHere? words t = some value ↔ Begins words t value := by
  constructor
  · intro h
    obtain ⟨r, hr, htaken⟩ := Option.bind_eq_some_iff.mp h
    obtain ⟨s, hs, hgapAt⟩ := Option.bind_eq_some_iff.mp hr
    obtain ⟨body, rfl, hspaced⟩ := (afterWords?_eq_some_iff hwords).mp hs
    obtain ⟨gap, rfl, hgap, -⟩ := afterGap?_eq_some_iff.mp hgapAt
    dsimp only at htaken
    split at htaken
    · cases htaken
    · next hne =>
      obtain rfl := Option.some.inj htaken
      refine ⟨body, gap, r.dropWhile fun c => !Text.isBlank c, ?_, hspaced, hgap,
        by simpa using hne, fun c hc => ?_, fun c hc => ?_⟩
      · rw [List.append_assoc _ (r.takeWhile _), List.takeWhile_append_dropWhile, List.append_assoc]
      · simpa using List.all_eq_true.mp List.all_takeWhile c hc
      · have hhead := List.head?_dropWhile_not (fun c => !Text.isBlank c) r
        rw [Option.mem_def.mp hc] at hhead
        simpa using hhead
  · rintro ⟨body, gap, after, rfl, hspaced, hgap, hne, hvalue, hafter⟩
    have hwordsAt : afterWords? words (body ++ gap ++ value ++ after) =
        some (gap ++ (value ++ after)) :=
      (afterWords?_eq_some_iff hwords).mpr ⟨body, by simp only [List.append_assoc], hspaced⟩
    have hgapAt : afterGap? (gap ++ (value ++ after)) = some (value ++ after) := by
      refine afterGap?_eq_some_iff.mpr ⟨gap, rfl, hgap, fun c hc => ?_⟩
      obtain ⟨d, u, rfl⟩ := List.exists_cons_of_ne_nil hne
      obtain rfl : d = c := Option.some.inj hc
      refine Bool.eq_false_iff.mpr fun hgap => ?_
      have hd := hvalue d List.mem_cons_self
      rw [Text.isBlank_of_isGap hgap] at hd
      cases hd
    have htake : (value ++ after).takeWhile (fun c => !Text.isBlank c) = value := by
      rw [List.takeWhile_append_of_pos (by simpa using hvalue)]
      cases after with
      | nil => simp
      | cons c after => rw [List.takeWhile_cons_of_neg (by simp [hafter c rfl]), List.append_nil]
    rw [valueHere?, hwordsAt, Option.bind_some, hgapAt, Option.bind_some]
    simp [htake, hne]

theorem Spaced.feed_not_mem (hwords : AreWords words) {t : Text} (h : Spaced words t) :
    '\n' ∉ t := by
  have hword {ws : List Text} (hws : AreWords ws) (w : Text) (hw : w ∈ ws) : '\n' ∉ w := by
    intro hmem
    cases (hws w hw).2 _ hmem
  induction h with
  | none => exact List.not_mem_nil
  | one w => exact hword hwords w List.mem_cons_self
  | next hgap _ ih =>
    have hfeed : '\n' ∉ _ := fun hmem => nomatch hgap.2 _ hmem
    simp [hword hwords _ List.mem_cons_self, hfeed,
      ih fun w hw => hwords w (List.mem_cons_of_mem _ hw)]

theorem not_begins_nil (words : List Text) (value : Text) : ¬ Begins words [] value := by
  rintro ⟨body, gap, after, h, -, -, hne, -⟩
  simp [hne] at h

theorem begins_append_feed (hwords : AreWords words) {l : Text} (hl : '\n' ∉ l) (t value : Text) :
    Begins words (l ++ '\n' :: t) value ↔ Begins words l value := by
  constructor
  · rintro ⟨body, gap, after, hcut, hspaced, hgap, hne, hvalue, hafter⟩
    have hfeed : '\n' ∉ body ++ gap ++ value := by
      have hgapFeed : '\n' ∉ gap := fun hmem => nomatch hgap.2 _ hmem
      have hvalueFeed : '\n' ∉ value := fun hmem => nomatch hvalue _ hmem
      simp [hspaced.feed_not_mem hwords, hgapFeed, hvalueFeed]
    rcases List.append_eq_append_iff.mp hcut with ⟨u, hu, hrest⟩ | ⟨u, hu, hrest⟩
    · cases u with
      | nil =>
        rw [List.append_nil] at hu
        exact ⟨body, gap, [], by simp [hu], hspaced, hgap, hne, hvalue, by simp⟩
      | cons c u =>
        obtain rfl : '\n' = c := (List.cons.inj hrest).1
        exact absurd (by simp [hu]) hfeed
    · refine ⟨body, gap, u, hu, hspaced, hgap, hne, hvalue, fun c hc => hafter c ?_⟩
      rw [hrest, List.head?_append, Option.mem_def.mp hc]
      rfl
  · rintro ⟨body, gap, after, rfl, hspaced, hgap, hne, hvalue, hafter⟩
    refine ⟨body, gap, after ++ '\n' :: t, by simp, hspaced, hgap, hne, hvalue, ?_⟩
    cases after with
    | nil =>
      intro c hc
      obtain rfl : '\n' = c := Option.some.inj hc
      rfl
    | cons d after => exact hafter

theorem valueHere?_append_feed (hwords : AreWords words) {l : Text} (hl : '\n' ∉ l) (t : Text) :
    valueHere? words (l ++ '\n' :: t) = valueHere? words l := by
  ext value
  simp only [valueHere?_eq_some_iff hwords, begins_append_feed hwords hl]

theorem valueHere?_nil (hwords : AreWords words) : valueHere? words [] = none :=
  Option.eq_none_iff_forall_ne_some.mpr fun value h =>
    not_begins_nil words value ((valueHere?_eq_some_iff hwords).mp h)

theorem firstValue?_append_feed (hwords : AreWords words) {l : Text} (hl : '\n' ∉ l)
    (bound : Bool) (t : Text) : firstValue? words bound (l ++ '\n' :: t) =
      (firstValue? words bound l).or (firstValue? words true t) := by
  induction l generalizing bound with
  | nil =>
    have hhere : valueHere? words ('\n' :: t) = none :=
      (valueHere?_append_feed hwords hl t).trans (valueHere?_nil hwords)
    have hstep : firstValue? words bound ('\n' :: t) =
        (if bound then valueHere? words ('\n' :: t) else none).or (firstValue? words true t) :=
      Option.orElse_eq_or
    rw [List.nil_append, hstep, hhere]
    cases bound <;> rfl
  | cons c l ih =>
    have hrest : '\n' ∉ l := fun hmem => hl (List.mem_cons_of_mem c hmem)
    have hhere := valueHere?_append_feed hwords hl t
    rw [List.cons_append] at hhere ⊢
    rw [firstValue?, firstValue?, hhere, ih hrest]
    cases (if bound then valueHere? words (c :: l) else none) <;> rfl

theorem firstValue?_lines (hwords : AreWords words) {l : Text} {ls : List Text} (hl : '\n' ∉ l)
    (hls : ∀ l ∈ ls, '\n' ∉ l) :
    firstValue? words true (l ++ (ls.map ('\n' :: ·)).flatten) =
      (l :: ls).findSome? (firstValue? words true) := by
  induction ls generalizing l with
  | nil =>
    rw [List.map_nil, List.flatten_nil, List.append_nil, List.findSome?_cons]
    cases firstValue? words true l <;> rfl
  | cons k ls ih =>
    obtain ⟨hk, hls⟩ := List.forall_mem_cons.mp hls
    rw [List.map_cons, List.flatten_cons, List.cons_append, firstValue?_append_feed hwords hl,
      ih hk hls]
    conv => rhs; rw [List.findSome?_cons]
    cases firstValue? words true l <;> rfl

theorem firstValue?_splitAt (hwords : AreWords words) (t : Text) : firstValue? words true t =
    (Text.splitAt '\n' t).findSome? (firstValue? words true) := by
  have hpieces (l : Text) (hl : l ∈ Text.splitAt '\n' t) : '\n' ∉ l :=
    Text.not_mem_of_mem_splitAt hl
  have hjoined := Text.splitAt_flatten '\n' t
  cases hsplit : Text.splitAt '\n' t with
  | nil => simp [hsplit] at hjoined
  | cons l ls =>
    rw [hsplit] at hjoined hpieces
    rw [List.map_cons, List.flatten_cons, List.cons_append] at hjoined
    obtain ⟨hl, hls⟩ := List.forall_mem_cons.mp hpieces
    rw [← firstValue?_lines hwords hl hls, (List.cons.inj hjoined).2]

@[simp] theorem not_occurs_nil (bound : Bool) (words : List Text) (before value : Text) :
    ¬ Occurs bound words [] before value := by
  rintro ⟨-, t, hcut, hbegins⟩
  obtain ⟨-, rfl⟩ := List.append_eq_nil_iff.mp hcut.symm
  exact not_begins_nil words value hbegins

theorem occurs_cons_iff {bound : Bool} {c : Char} {l before value : Text} :
    Occurs bound words (c :: l) before value ↔
      before = [] ∧ bound = true ∧ Begins words (c :: l) value ∨
      ∃ u, before = c :: u ∧ Occurs (!isIdentifier c) words l u value := by
  constructor
  · rintro ⟨hplace, t, hcut, hbegins⟩
    cases before with
    | nil => exact .inl ⟨rfl, hplace, hcut ▸ hbegins⟩
    | cons d u =>
      obtain ⟨rfl, hrest⟩ := List.cons.inj hcut
      refine .inr ⟨u, rfl, ?_, t, hrest, hbegins⟩
      cases u with
      | nil => simpa using hplace
      | cons e u => rwa [List.getLast?_cons_cons] at hplace
  · rintro (⟨rfl, hbound, hbegins⟩ | ⟨u, rfl, hplace, t, rfl, hbegins⟩)
    · exact ⟨hbound, c :: l, rfl, hbegins⟩
    · refine ⟨?_, t, rfl, hbegins⟩
      cases u with
      | nil => simpa using hplace
      | cons e u => rwa [List.getLast?_cons_cons]

theorem firstValue?_eq_none_iff (hwords : AreWords words) {bound : Bool} {l : Text} :
    firstValue? words bound l = none ↔ ∀ before value, ¬ Occurs bound words l before value := by
  induction l generalizing bound with
  | nil => simp [firstValue?]
  | cons c l ih =>
    have hhere : (if bound then valueHere? words (c :: l) else none) = none ↔
        ∀ value, ¬ (bound = true ∧ Begins words (c :: l) value) := by
      simp only [← valueHere?_eq_some_iff hwords]
      cases bound <;> simp [Option.eq_none_iff_forall_ne_some]
    rw [firstValue?, Option.orElse_eq_or, Option.or_eq_none_iff, hhere, ih]
    constructor
    · rintro ⟨hstart, hrest⟩ before value hoccurs
      rcases occurs_cons_iff.mp hoccurs with ⟨-, h⟩ | ⟨u, -, h⟩
      · exact hstart value h
      · exact hrest u value h
    · intro h
      exact ⟨fun value hstart => h [] value (occurs_cons_iff.mpr (.inl ⟨rfl, hstart⟩)),
        fun u value hrest => h (c :: u) value (occurs_cons_iff.mpr (.inr ⟨u, rfl, hrest⟩))⟩

theorem firstValue?_eq_some_iff (hwords : AreWords words) {bound : Bool} {l value : Text} :
    firstValue? words bound l = some value ↔ ∃ before, Occurs bound words l before value ∧
      ∀ before' value', Occurs bound words l before' value' → before.length ≤ before'.length := by
  induction l generalizing bound with
  | nil => simp [firstValue?]
  | cons c l ih =>
    rw [firstValue?, Option.orElse_eq_or]
    cases hhere : (if bound then valueHere? words (c :: l) else none) with
    | some v =>
      obtain ⟨hbound, hv⟩ : bound = true ∧ valueHere? words (c :: l) = some v := by
        cases bound with
        | false => cases hhere
        | true => exact ⟨rfl, hhere⟩
      have hstart : Occurs bound words (c :: l) [] v :=
        occurs_cons_iff.mpr (.inl ⟨rfl, hbound, (valueHere?_eq_some_iff hwords).mp hv⟩)
      rw [Option.some_or, Option.some_inj]
      constructor
      · rintro rfl
        exact ⟨[], hstart, by simp⟩
      · rintro ⟨before, hoccurs, hfirst⟩
        obtain rfl := List.eq_nil_of_length_eq_zero (Nat.le_zero.mp (hfirst [] v hstart))
        rcases occurs_cons_iff.mp hoccurs with ⟨-, -, h⟩ | ⟨u, h, -⟩
        · exact Option.some.inj (hv.symm.trans ((valueHere?_eq_some_iff hwords).mpr h))
        · cases h
    | none =>
      have hlater (before value : Text) : Occurs bound words (c :: l) before value ↔
          ∃ u, before = c :: u ∧ Occurs (!isIdentifier c) words l u value := by
        rw [occurs_cons_iff, or_iff_right]
        rintro ⟨-, rfl, hbegins⟩
        rw [if_pos rfl, (valueHere?_eq_some_iff hwords).mpr hbegins] at hhere
        cases hhere
      rw [Option.none_or, ih]
      constructor
      · rintro ⟨u, hoccurs, hfirst⟩
        refine ⟨c :: u, (hlater _ _).mpr ⟨u, rfl, hoccurs⟩, fun before' value' h => ?_⟩
        obtain ⟨u', rfl, hrest⟩ := (hlater _ _).mp h
        exact Nat.succ_le_succ (hfirst u' value' hrest)
      · rintro ⟨before, hoccurs, hfirst⟩
        obtain ⟨u, rfl, hrest⟩ := (hlater _ _).mp hoccurs
        refine ⟨u, hrest, fun u' value' h => ?_⟩
        exact Nat.le_of_succ_le_succ (hfirst _ _ ((hlater _ _).mpr ⟨u', rfl, h⟩))

/-- The value that is found in a text is the one of its first occurrence. -/
theorem firstValue?_iff_first (hwords : AreWords words) {t value : Text} :
    firstValue? words true t = some value ↔ First words t value := by
  rw [firstValue?_splitAt hwords, List.findSome?_eq_some_iff]
  constructor
  · rintro ⟨above, line, below, hsplit, hfound, habove⟩
    obtain ⟨before, hoccurs, hfirst⟩ := (firstValue?_eq_some_iff hwords).mp hfound
    exact ⟨above, line, below, before, hsplit,
      fun l hl => (firstValue?_eq_none_iff hwords).mp (habove l hl), hoccurs, hfirst⟩
  · rintro ⟨above, line, below, before, hsplit, habove, hoccurs, hfirst⟩
    exact ⟨above, line, below, hsplit,
      (firstValue?_eq_some_iff hwords).mpr ⟨before, hoccurs, hfirst⟩,
      fun l hl => (firstValue?_eq_none_iff hwords).mpr (habove l hl)⟩

end Marker
end VersionDrift

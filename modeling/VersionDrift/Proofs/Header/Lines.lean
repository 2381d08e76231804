import VersionDrift.Header.Reading
import VersionDrift.Proofs.Header.Occurrence

/-!
# Headers line by line

What a marker has to say about a text is the list of its values on the lines, of which the
first counts. So lines on which no marker occurs may come and go, lines may change places
as long as no marker occurs on two of them, and blanks at the ends of lines do not matter.
-/

set_option autoImplicit false

namespace VersionDrift

namespace Marker

/-- The marker stands on the line and a value follows it. -/
def OccursOn (m : Marker) (line : Text) : Prop :=
  ∃ before value, Occurs true (Text.words m.text) line before value

theorem areWords (m : Marker) : AreWords (Text.words m.text) :=
  fun _ hw => Text.nonblank_of_mem_words hw

theorem occursOn_iff {m : Marker} {line : Text} :
    m.OccursOn line ↔ (firstValue? (Text.words m.text) true line).isSome = true := by
  rw [Option.isSome_iff_ne_none, Ne, firstValue?_eq_none_iff m.areWords]
  simp [OccursOn]

instance (m : Marker) (line : Text) : Decidable (m.OccursOn line) :=
  decidable_of_iff _ occursOn_iff.symm

/-- The values of the marker, the first one on each line where it occurs. -/
def values (m : Marker) (lines : List Text) : List Text :=
  lines.filterMap (firstValue? (Text.words m.text) true)

theorem values_append (m : Marker) (ls ls' : List Text) :
    m.values (ls ++ ls') = m.values ls ++ m.values ls' :=
  List.filterMap_append

theorem values_eq_nil {m : Marker} {ls : List Text} (h : ∀ l ∈ ls, ¬ m.OccursOn l) :
    m.values ls = [] := by
  refine List.filterMap_eq_nil_iff.mpr fun l hl => ?_
  simpa [occursOn_iff] using h l hl

theorem length_values_le_one {m : Marker} {ls : List Text}
    (h : ls.Pairwise fun l l' => ¬ (m.OccursOn l ∧ m.OccursOn l')) : (m.values ls).length ≤ 1 := by
  induction ls with
  | nil => exact Nat.zero_le 1
  | cons l ls ih =>
    obtain ⟨hl, hrest⟩ := List.pairwise_cons.mp h
    have hsplit : m.values (l :: ls) = m.values [l] ++ m.values ls := m.values_append [l] ls
    by_cases hoccurs : m.OccursOn l
    · have hnone : m.values ls = [] := values_eq_nil fun l' hl' h' => hl l' hl' ⟨hoccurs, h'⟩
      rw [hsplit, hnone, List.append_nil]
      exact List.length_filterMap_le _ [l]
    · have hnone : m.values [l] = [] := values_eq_nil (by simpa using hoccurs)
      rw [hsplit, hnone, List.nil_append]
      exact ih hrest

theorem values_perm {m : Marker} {ls ls' : List Text} (hperm : ls.Perm ls')
    (h : ls.Pairwise fun l l' => ¬ (m.OccursOn l ∧ m.OccursOn l')) :
    m.values ls = m.values ls' := by
  have hvalues : (m.values ls).Perm (m.values ls') := hperm.filterMap _
  have hlength := length_values_le_one h
  cases hls : m.values ls with
  | nil =>
    rw [hls] at hvalues
    exact hvalues.nil_eq
  | cons v vs =>
    rw [hls, List.length_cons] at hlength
    obtain rfl := List.eq_nil_of_length_eq_zero (by omega : vs.length = 0)
    rw [hls] at hvalues
    exact hvalues.singleton_eq

variable {words : List Text}

theorem begins_append_blank {c : Char} (hc : Text.isBlank c = true) (l value : Text) :
    Begins words (l ++ [c]) value ↔ Begins words l value := by
  constructor
  · rintro ⟨body, gap, after, hcut, hspaced, hgap, hne, hvalue, hafter⟩
    rcases List.eq_nil_or_concat after with rfl | ⟨after, d, rfl⟩
    · -- the blank would be the last character of the value
      obtain ⟨v, d, rfl⟩ := (List.eq_nil_or_concat value).resolve_left hne
      rw [List.append_nil, List.concat_eq_append, ← List.append_assoc] at hcut
      obtain rfl : c = d := by simpa using (List.append_inj' hcut rfl).2
      rw [hvalue c (by simp)] at hc
      cases hc
    · rw [List.concat_eq_append] at hafter hcut
      rw [← List.append_assoc] at hcut
      obtain ⟨rfl, -⟩ := List.append_inj' hcut rfl
      refine ⟨body, gap, after, rfl, hspaced, hgap, hne, hvalue, fun e he => hafter e ?_⟩
      rw [List.head?_append, Option.mem_def.mp he]
      rfl
  · rintro ⟨body, gap, after, rfl, hspaced, hgap, hne, hvalue, hafter⟩
    refine ⟨body, gap, after ++ [c], by simp, hspaced, hgap, hne, hvalue, ?_⟩
    cases after with
    | nil => simpa using hc
    | cons d after => exact hafter

theorem firstValue?_append_blank (hwords : AreWords words) {c : Char} (hc : Text.isBlank c = true)
    (bound : Bool) (l : Text) :
    firstValue? words bound (l ++ [c]) = firstValue? words bound l := by
  have hhere (l : Text) : valueHere? words (l ++ [c]) = valueHere? words l := by
    ext value
    simp only [valueHere?_eq_some_iff hwords, begins_append_blank hc]
  induction l generalizing bound with
  | nil =>
    have hnone : valueHere? words [c] = none := (hhere []).trans (valueHere?_nil hwords)
    simp [firstValue?, hnone]
  | cons d l ih =>
    have hfirst := hhere (d :: l)
    rw [List.cons_append] at hfirst ⊢
    rw [firstValue?, firstValue?, hfirst, ih]

/-- A search goes from line to line, whatever separates them. -/
theorem firstValue?_joined {sep : Text} (hsep : ∀ l t, '\n' ∉ l →
      firstValue? words true (l ++ sep ++ t) =
        (firstValue? words true l).or (firstValue? words true t))
    {ls : List Text} (hls : ∀ l ∈ ls, '\n' ∉ l) :
    firstValue? words true (Text.joined sep ls) = ls.findSome? (firstValue? words true) := by
  induction ls with
  | nil => rfl
  | cons l ls ih =>
    obtain ⟨hl, hls⟩ := List.forall_mem_cons.mp hls
    rw [List.findSome?_cons]
    cases ls with
    | nil => cases hfound : firstValue? words true l <;> simpa using hfound
    | cons k ls =>
      rw [Text.joined_cons_cons, hsep l _ hl, ih hls]
      cases firstValue? words true l <;> rfl

theorem firstValue?_feed (hwords : AreWords words) (l t : Text) (hl : '\n' ∉ l) :
    firstValue? words true (l ++ ['\n'] ++ t) =
      (firstValue? words true l).or (firstValue? words true t) := by
  rw [List.append_assoc]
  exact firstValue?_append_feed hwords hl true t

theorem firstValue?_return (hwords : AreWords words) (l t : Text) (hl : '\n' ∉ l) :
    firstValue? words true (l ++ ['\r', '\n'] ++ t) =
      (firstValue? words true l).or (firstValue? words true t) := by
  have hl' : '\n' ∉ l ++ ['\r'] := by simpa using hl
  rw [List.append_cons l, firstValue?_feed hwords _ t hl', firstValue?_append_blank hwords rfl]

theorem find?_joined (m : Marker) {ls : List Text} (hls : ∀ l ∈ ls, '\n' ∉ l) :
    m.find? (Text.joined ['\n'] ls) = (m.values ls).head?.map uncommented := by
  rw [find?, firstValue?_joined (firstValue?_feed m.areWords) hls, values, List.head?_filterMap]

theorem find?_returned (m : Marker) (t : Text) :
    m.find? (Text.replaceChar '\n' ['\r', '\n'] t) = m.find? t := by
  have hpieces (l : Text) (hl : l ∈ Text.splitAt '\n' t) : '\n' ∉ l :=
    Text.not_mem_of_mem_splitAt hl
  rw [find?, find?, Text.replaceChar_eq_joined,
    firstValue?_joined (firstValue?_return m.areWords) hpieces, firstValue?_splitAt m.areWords]

end Marker

namespace MarkerSet

def markers (ms : MarkerSet) : List Marker := [ms.major, ms.minor, ms.patch]

@[simp] theorem mem_markers {m : Marker} {ms : MarkerSet} :
    m ∈ ms.markers ↔ m = ms.major ∨ m = ms.minor ∨ m = ms.patch := by
  simp [markers]

theorem read_congr {ms : MarkerSet} {t t' : Text} (h : ∀ m ∈ ms.markers, m.find? t = m.find? t') :
    ms.read t = ms.read t' := by
  have hcomponent (m : Marker) (hm : m ∈ ms.markers) : component t m = component t' m := by
    unfold component
    rw [h m hm]
  simp only [markers, List.forall_mem_cons] at hcomponent
  obtain ⟨hmajor, hminor, hpatch, -⟩ := hcomponent
  unfold read
  rw [hmajor, hminor, hpatch]

/-- A header is read the same, whether as a version or as what is wrong with it, with more lines on
which no marker occurs, in another order of its lines when no marker occurs on two of them, and
with carriage returns before its line feeds. -/
theorem read_ignores_layout (ms : MarkerSet) :
    (∀ above inserted below : List Text, (∀ l ∈ above ++ inserted ++ below, '\n' ∉ l) →
      (∀ l ∈ inserted, ∀ m ∈ ms.markers, ¬ m.OccursOn l) →
      ms.read (Text.joined ['\n'] (above ++ inserted ++ below)) =
        ms.read (Text.joined ['\n'] (above ++ below))) ∧
    (∀ ls ls' : List Text, (∀ l ∈ ls, '\n' ∉ l) → ls.Perm ls' →
      (∀ m ∈ ms.markers, ls.Pairwise fun l l' => ¬ (m.OccursOn l ∧ m.OccursOn l')) →
      ms.read (Text.joined ['\n'] ls) = ms.read (Text.joined ['\n'] ls')) ∧
    ∀ t, ms.read (Text.replaceChar '\n' ['\r', '\n'] t) = ms.read t := by
  refine ⟨fun above inserted below hlines hno => read_congr fun m hm => ?_,
    fun ls ls' hlines hperm honce => read_congr fun m hm => ?_,
    fun t => read_congr fun m _ => m.find?_returned t⟩
  · have hinserted : m.values inserted = [] := Marker.values_eq_nil fun l hl => hno l hl m hm
    have hkept : ∀ l ∈ above ++ below, '\n' ∉ l := fun l hl => hlines l (by grind)
    rw [m.find?_joined hlines, m.find?_joined hkept]
    simp only [m.values_append, hinserted, List.append_nil]
  · have hlines' : ∀ l ∈ ls', '\n' ∉ l := fun l hl => hlines l (hperm.mem_iff.mpr hl)
    rw [m.find?_joined hlines, m.find?_joined hlines', Marker.values_perm hperm (honce m hm)]

theorem read_ignores_layout_near_misses :
    let ms := ofStem "V".toList
    let above := ["#define V_MAJOR 1".toList]
    let inserted := ["#define V_MINOR".toList, "#define LIB_V_MINOR 7 // #define V_MINORS 8".toList]
    let below := ["#define V_MINOR two".toList, [], "/*#define\tV_PATCH 3*/".toList]
    (∀ l ∈ above ++ inserted ++ below, '\n' ∉ l) ∧
    (∀ l ∈ inserted, ∀ m ∈ ms.markers, ¬ m.OccursOn l) ∧
    ms.read (Text.joined ['\n'] (above ++ inserted ++ below)) =
      ms.read (Text.joined ['\n'] (above ++ below)) ∧
    (∀ l ∈ above ++ below, '\n' ∉ l) ∧ (above ++ below).Perm (below.reverse ++ above) ∧
    (∀ m ∈ ms.markers, (above ++ below).Pairwise fun l l' => ¬ (m.OccursOn l ∧ m.OccursOn l')) ∧
    ms.read (Text.joined ['\n'] (above ++ below)) =
      ms.read (Text.joined ['\n'] (below.reverse ++ above)) := by
  intro ms above inserted below
  obtain ⟨hinserted, hordered, -⟩ := read_ignores_layout ms
  have hall : ∀ l ∈ above ++ inserted ++ below, '\n' ∉ l := by decide +kernel
  have hno : ∀ l ∈ inserted, ∀ m ∈ ms.markers, ¬ m.OccursOn l := by decide +kernel
  have hlines : ∀ l ∈ above ++ below, '\n' ∉ l := by decide +kernel
  have hperm : (above ++ below).Perm (below.reverse ++ above) := by decide +kernel
  have honce : ∀ m ∈ ms.markers,
      (above ++ below).Pairwise fun l l' => ¬ (m.OccursOn l ∧ m.OccursOn l') := by decide +kernel
  exact ⟨hall, hno, hinserted above inserted below hall hno, hlines, hperm, honce,
    hordered _ _ hlines hperm honce⟩

end MarkerSet
end VersionDrift

import VersionDrift.Proofs.Header.Defined
import VersionDrift.Proofs.Header.Lines

/-!
# What a failed reading names

A header without one of its markers is never read as a version. The message names all
markers that are absent when the others have numbers; a value that is no number is
reported alone, and then no absent marker is named.
-/

set_option autoImplicit false

namespace VersionDrift

namespace Text

theorem infix_joined {sep t : Text} {ts : List Text} (h : t ∈ ts) : t <:+: joined sep ts := by
  induction ts with
  | nil => cases h
  | cons u us ih =>
    cases us with
    | nil =>
      obtain rfl := List.mem_singleton.mp h
      exact List.infix_rfl
    | cons v us =>
      rw [joined_cons_cons]
      rcases List.mem_cons.mp h with rfl | h
      · rw [List.append_assoc]
        exact (List.prefix_append _ _).isInfix
      · exact (ih h).trans (List.suffix_append _ _).isInfix

theorem rotated_of_append_eq {x t u : Text} (h : x ++ t = t ++ u) :
    ∃ a b, x = a ++ b ∧ u = b ++ a := by
  induction hlength : t.length using Nat.strongRecOn generalizing t with
  | ind n ih =>
    rcases List.append_eq_append_iff.mp h with ⟨r, hr, hu⟩ | ⟨r, hx, hu⟩
    · cases x with
      | nil => exact ⟨[], [], rfl, by simpa using h⟩
      | cons c x =>
        have hshorter : r.length < n := by
          rw [← hlength, hr, List.length_append, List.length_cons]
          omega
        exact ih r.length hshorter (hr.symm.trans hu) rfl
    · exact ⟨t, r, hx, hu⟩

theorem infix_of_infix_append {t s w : Text} {c : Char} (h : t ++ [c] <:+: s ++ w) (hc : c ∉ w) :
    t ++ [c] <:+: s := by
  obtain ⟨x, y, h⟩ := h
  rcases List.append_eq_append_iff.mp h with ⟨r, rfl, -⟩ | ⟨r, hr, rfl⟩
  · exact ⟨x, r, rfl⟩
  · rcases List.eq_nil_or_concat r with rfl | ⟨r, d, rfl⟩
    · exact ⟨x, [], by simpa using hr⟩
    · rw [List.concat_eq_append, ← List.append_assoc, ← List.append_assoc] at hr
      obtain rfl : c = d := by simpa using (List.append_inj' hr rfl).2
      exact absurd (by simp) hc

end Text

namespace Marker

def IsAbsent (m : Marker) (t : Text) : Prop := ∀ line ∈ Text.splitAt '\n' t, ¬ m.OccursOn line

instance (m : Marker) (t : Text) : Decidable (m.IsAbsent t) :=
  List.decidableBAll (fun line => ¬ m.OccursOn line) (Text.splitAt '\n' t)

theorem find?_eq_none_iff {m : Marker} {t : Text} : m.find? t = none ↔ m.IsAbsent t := by
  rw [find?, Option.map_eq_none_iff, firstValue?_splitAt m.areWords, List.findSome?_eq_none_iff]
  simp [IsAbsent, occursOn_iff]

end Marker

namespace HeaderFault

/-- The message shows the marker. -/
def Names (f : HeaderFault) (m : Marker) : Prop := m.text <:+: f.message

instance (f : HeaderFault) (m : Marker) : Decidable (f.Names m) :=
  inferInstanceAs (Decidable (m.text <:+: f.message))

theorem names_of_mem {ms : List Marker} {m : Marker} (h : m ∈ ms) : (missing ms).Names m := by
  have hquoted : m.text <:+: quoted m := ⟨['\x60'], ['\x60'], rfl⟩
  have hjoined : quoted m <:+: Text.joined ", ".toList (ms.map quoted) :=
    Text.infix_joined (List.mem_map_of_mem h)
  exact (hquoted.trans hjoined).trans (List.suffix_append _ _).isInfix

def opened (m : Marker) (t : Text) : Text := '\x60' :: m.text ++ '\x60' :: t

theorem quoted_append (m : Marker) (t : Text) : quoted m ++ t = opened m t := by
  simp [quoted, opened]

theorem message_noValue (m : Marker) : (noValue m).message = opened m " has no value".toList :=
  quoted_append m _

theorem message_notNumeric (m : Marker) (raw : Text) : (notNumeric m raw).message =
    opened m (" has non-numeric value '".toList ++ (raw ++ ['\''])) := by
  rw [← quoted_append, ← List.append_assoc, ← List.append_assoc]
  rfl

/-- The fault is about the value of the marker. -/
inductive IsAbout (m : Marker) : HeaderFault → Prop
  | noValue : IsAbout m (.noValue m)
  | notNumeric {raw : Text} (h : ∀ c ∈ raw, Text.isBlank c = false) : IsAbout m (.notNumeric m raw)

def directive : Text := "#define ".toList

theorem directive_again {stem x u : Text}
    (h : x ++ (directive ++ stem) = directive ++ stem ++ u) (hu : u.head? = some '_') :
    directive <:+: u := by
  obtain ⟨a, b, rfl, rfl⟩ := Text.rotated_of_append_eq h
  cases b with
  | nil =>
    cases a with
    | nil => cases hu
    | cons c a =>
      obtain rfl : c = '#' := (List.cons.inj h).1
      cases hu
  | cons c b =>
    obtain rfl : c = '_' := Option.some.inj hu
    rw [List.append_assoc, List.append_assoc directive] at h
    rcases List.append_eq_append_iff.mp h with ⟨r, hr, hcut⟩ | ⟨r, rfl, -⟩
    · cases r with
      | nil => exact ⟨'_' :: b, [], by simp [hr]⟩
      | cons d r =>
        obtain rfl : '_' = d := (List.cons.inj hcut).1
        exact absurd (by rw [hr]; simp : '_' ∈ directive) (by decide)
    · exact ⟨'_' :: b, r, by simp⟩

/-- A message with another marker at its start names a marker only if such a start stands once more
in it. -/
theorem directive_again_of_named {stem p q tail : Text} (hlength : p.length = q.length)
    (hne : p ≠ q) (h : directive ++ stem ++ '_' :: q <:+:
      opened ⟨directive ++ stem ++ '_' :: p⟩ tail) :
    directive <:+: '_' :: p ++ '\x60' :: tail := by
  obtain ⟨x, y, h⟩ := h
  rw [opened] at h
  cases x with
  | nil => cases (List.cons.inj h).1
  | cons c x =>
    have h : x ++ (directive ++ stem) ++ ('_' :: q ++ y) =
        directive ++ stem ++ ('_' :: p ++ '\x60' :: tail) := by
      simpa using (List.cons.inj h).2
    rcases List.append_eq_append_iff.mp h with ⟨r, hr, hcut⟩ | ⟨u, hu, hcut⟩
    · -- the two places are the same, and so are the parts
      obtain ⟨rfl, rfl⟩ : x = [] ∧ r = [] := by
        have := congrArg List.length hr
        simp only [List.length_append] at this
        exact ⟨List.eq_nil_of_length_eq_zero (by omega), List.eq_nil_of_length_eq_zero (by omega)⟩
      exact absurd (List.append_inj (List.cons.inj hcut).2 hlength.symm).1.symm hne
    · cases u with
      | nil =>
        exact absurd (List.append_inj (List.cons.inj hcut).2 hlength).1 hne
      | cons d u =>
        obtain rfl : '_' = d := (List.cons.inj hcut).1
        rw [hcut]
        exact (directive_again hu rfl).trans (List.prefix_append _ _).isInfix

def parts : List Text := ["MAJOR".toList, "MINOR".toList, "PATCH".toList]

/-- A fault about one marker does not name another one. -/
theorem IsAbout.not_names {stem p q : Text} {f : HeaderFault} (hp : p ∈ parts) (hq : q ∈ parts)
    (hne : p ≠ q) (h : f.IsAbout ⟨directive ++ stem ++ '_' :: p⟩) :
    ¬ f.Names ⟨directive ++ stem ++ '_' :: q⟩ := by
  have hlength : p.length = q.length := by
    have hfive : ∀ r ∈ parts, r.length = 5 := by decide
    rw [hfive p hp, hfive q hq]
  have hplain : '#' ∉ p := by
    have hall : ∀ r ∈ parts, '#' ∉ r := by decide
    exact hall p hp
  have hsharp {t : Text} (ht : directive <:+: t) : '#' ∈ t := ht.subset (by decide)
  have hfree {verdict : Text} (hverdict : '#' ∉ verdict) : '#' ∉ '_' :: p ++ '\x60' :: verdict := by
    simp [hplain, hverdict]
  intro hnames
  cases h with
  | noValue =>
    rw [Names, message_noValue] at hnames
    exact hfree (by decide) (hsharp (directive_again_of_named hlength hne hnames))
  | @notNumeric raw hraw =>
    rw [Names, message_notNumeric] at hnames
    have hmessage := directive_again_of_named hlength hne hnames
    have hvalue : ' ' ∉ raw ++ ['\''] := fun h => by
      rcases List.mem_append.mp h with h | h
      · exact absurd (hraw _ h) (by decide)
      · exact absurd h (by decide)
    rw [← List.cons_append, ← List.append_assoc] at hmessage
    have hmessage := Text.infix_of_infix_append (t := "#define".toList) hmessage hvalue
    exact hfree (by decide) (hsharp hmessage)

end HeaderFault

namespace MarkerSet

open HeaderFault (directive parts)

theorem component_eq_none_iff {t : Text} {m : Marker} :
    component t m = .ok none ↔ m.IsAbsent t := by
  rw [← Marker.find?_eq_none_iff]
  unfold component
  split
  · next hnone => simp [hnone]
  · next hnil => simp [hnil]
  · next raw hraw =>
    rw [hraw]
    split
    · split <;> simp
    · simp

theorem component_eq_error_iff {t : Text} {m : Marker} :
    (∃ f, component t m = .error f) ↔ ¬ m.IsAbsent t ∧ ¬ ∃ n, m.Defines t n := by
  simp only [← component_eq_none_iff, ← component_eq_some_iff]
  cases component t m with
  | error f => simp
  | ok n => cases n <;> simp

theorem nonblank_of_find? {m : Marker} {t raw : Text} (h : m.find? t = some raw) :
    ∀ c ∈ raw, Text.isBlank c = false := by
  obtain ⟨value, hfirst, ⟨rest, rfl, -⟩, -⟩ := Marker.find?_eq_some_iff.mp h
  obtain ⟨_, _, _, _, _, _, ⟨_, _, _, hbegins⟩, _⟩ := hfirst
  obtain ⟨_, _, _, _, _, _, _, hvalue, _⟩ := hbegins
  exact fun c hc => hvalue c (List.mem_append_left rest hc)

theorem isAbout_of_component {t : Text} {m : Marker} {f : HeaderFault}
    (h : component t m = .error f) : f.IsAbout m := by
  unfold component at h
  split at h
  · cases h
  · obtain rfl := Except.error.inj h
    exact .noValue
  · next raw _ hraw =>
    have hnumeric : HeaderFault.notNumeric m raw = f := by
      split at h
      · split at h
        · cases h
        · exact Except.error.inj h
      · exact Except.error.inj h
    exact hnumeric ▸ .notNumeric (nonblank_of_find? hraw)

theorem read_eq_error_of_component {ms : MarkerSet} {t : Text} {m : Marker} {f : HeaderFault}
    (hm : m ∈ ms.markers) (h : component t m = .error f) :
    ∃ m' ∈ ms.markers, ∃ f', component t m' = .error f' ∧ ms.read t = .error f' := by
  unfold read
  cases hmajor : component t ms.major with
  | error f' => exact ⟨ms.major, by simp, f', hmajor, rfl⟩
  | ok major =>
    cases hminor : component t ms.minor with
    | error f' => exact ⟨ms.minor, by simp, f', hminor, rfl⟩
    | ok minor =>
      cases hpatch : component t ms.patch with
      | error f' => exact ⟨ms.patch, by simp, f', hpatch, rfl⟩
      | ok patch =>
        have hno : ∀ m ∈ ms.markers, component t m ≠ .error f := by simp [*]
        exact absurd h (hno m hm)

theorem read_eq_missing {ms : MarkerSet} {t : Text}
    (hok : ∀ m ∈ ms.markers, ∀ f, component t m ≠ .error f)
    (habsent : ∃ m ∈ ms.markers, m.IsAbsent t) :
    ∃ absent, ms.read t = .error (.missing absent) ∧
      ∀ m ∈ ms.markers, m.IsAbsent t → m ∈ absent := by
  obtain ⟨hmajor, hminor, hpatch, -⟩ : (∀ f, component t ms.major ≠ .error f) ∧
      (∀ f, component t ms.minor ≠ .error f) ∧ (∀ f, component t ms.patch ≠ .error f) ∧ True := by
    simpa using hok
  simp only [← component_eq_none_iff, markers, List.mem_cons, List.not_mem_nil, or_false,
    exists_eq_or_imp, exists_eq_left, forall_eq_or_imp, forall_eq] at habsent ⊢
  unfold read
  cases h : component t ms.major with
  | error f => exact absurd h (hmajor f)
  | ok major =>
    cases h' : component t ms.minor with
    | error f => exact absurd h' (hminor f)
    | ok minor =>
      cases h'' : component t ms.patch with
      | error f => exact absurd h'' (hpatch f)
      | ok patch =>
        cases major <;> cases minor <;> cases patch <;> simp_all

theorem markers_ofStem (stem : Text) :
    (ofStem stem).markers = parts.map fun p => ⟨directive ++ stem ++ '_' :: p⟩ :=
  rfl

theorem not_names_of_mem {stem : Text} {m a : Marker} {f : HeaderFault}
    (hm : m ∈ (ofStem stem).markers) (ha : a ∈ (ofStem stem).markers) (hne : m ≠ a)
    (h : f.IsAbout m) : ¬ f.Names a := by
  rw [markers_ofStem] at hm ha
  obtain ⟨p, hp, rfl⟩ := List.mem_map.mp hm
  obtain ⟨q, hq, rfl⟩ := List.mem_map.mp ha
  exact h.not_names hp hq fun hpq => hne (by rw [hpq])

/-- A header with an absent marker is not read as a version, and what is reported names all absent
markers exactly when each of the other ones has a number for a value. -/
theorem read_of_absent (stem t : Text) (h : ∃ m ∈ (ofStem stem).markers, m.IsAbsent t) :
    ∃ f, (ofStem stem).read t = .error f ∧
      ((∀ m ∈ (ofStem stem).markers, m.IsAbsent t → f.Names m) ↔
        ∀ m ∈ (ofStem stem).markers, m.IsAbsent t ∨ ∃ n, m.Defines t n) := by
  by_cases hfault : ∃ m ∈ (ofStem stem).markers, ∃ f, component t m = .error f
  · obtain ⟨m, hm, f, hf⟩ := hfault
    obtain ⟨m', hm', f', hf', hread⟩ := read_eq_error_of_component hm hf
    obtain ⟨habsent', hdefined'⟩ := component_eq_error_iff.mp ⟨f', hf'⟩
    obtain ⟨a, ha, habsent⟩ := h
    have hne : m' ≠ a := fun heq => habsent' (heq ▸ habsent)
    have hunnamed := not_names_of_mem hm' ha hne (isAbout_of_component hf')
    exact ⟨f', hread, iff_of_false (fun hnames => hunnamed (hnames a ha habsent))
      fun hdefined => (hdefined m' hm').elim habsent' hdefined'⟩
  · have hok : ∀ m ∈ (ofStem stem).markers, ∀ f, component t m ≠ .error f :=
      fun m hm f hf => hfault ⟨m, hm, f, hf⟩
    obtain ⟨absent, hread, hlisted⟩ := read_eq_missing hok h
    refine ⟨.missing absent, hread, iff_of_true
      (fun m hm habsent => HeaderFault.names_of_mem (hlisted m hm habsent)) fun m hm => ?_⟩
    refine Classical.byContradiction fun hneither => ?_
    obtain ⟨f, hf⟩ := component_eq_error_iff.mpr (not_or.mp hneither)
    exact hok m hm f hf

theorem read_of_absent_two :
    let ms := ofStem "V".toList
    let t := "#define V_MAJOR\n#define V_MINOR 7\n#define V_PATCHES 3\n".toList
    (∃ m ∈ ms.markers, m.IsAbsent t) ∧
      ∃ f, ms.read t = .error f ∧
        ((∀ m ∈ ms.markers, m.IsAbsent t → f.Names m) ↔
          ∀ m ∈ ms.markers, m.IsAbsent t ∨ ∃ n, m.Defines t n) := by
  intro ms t
  have habsent : ∃ m ∈ ms.markers, m.IsAbsent t := by decide +kernel
  exact ⟨habsent, read_of_absent "V".toList t habsent⟩

/-- Two markers are absent, and the value of the third one is all that is reported. -/
theorem unnamed_beside_bad_value :
    let ms := ofStem "V".toList
    let t := "#define V_MINOR x\n".toList
    ms.major.IsAbsent t ∧ ms.patch.IsAbsent t ∧ ms.read t = .error (.notNumeric ms.minor ['x']) ∧
      ¬ (HeaderFault.notNumeric ms.minor ['x']).Names ms.major ∧
      ¬ (HeaderFault.notNumeric ms.minor ['x']).Names ms.patch := by
  refine ⟨by decide +kernel, by decide +kernel, by rfl, by decide +kernel, by decide +kernel⟩

end MarkerSet
end VersionDrift

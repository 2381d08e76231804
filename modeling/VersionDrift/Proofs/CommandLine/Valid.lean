import VersionDrift.CommandLine.Arguments
import VersionDrift.Proofs.Except

/-!
# Valid command lines

A command line is valid when it consists of flags, of options with their values and of
letters, each of which adds something to the arguments; two dashes may end it. No value
that is a word of its own looks like an option. So a flag can be taken out of a valid
line without a change to the arguments other than this flag.
-/

set_option autoImplicit false

namespace VersionDrift.Arguments

/-- The words add up to the arguments `b` when they come after those of `a`. -/
inductive Reads : List Text → Arguments → Arguments → Prop
  | nil (a : Arguments) : Reads [] a a
  | stop (a : Arguments) : Reads [['-', '-']] a a
  | flag {long name : Text} {f : Flag} {words : List Text} {a a' b : Arguments}
      (split : splitValue long = (name, Option.none))
      (named : longNames.lookup name = some (.flag f))
      (added : addFlag ('-' :: '-' :: long) f a = .ok a') (rest : Reads words a' b) :
      Reads (('-' :: '-' :: long) :: words) a b
  | joined {long name value : Text} {o : OptionName} {words : List Text} {a a' b : Arguments}
      (split : splitValue long = (name, some value))
      (named : longNames.lookup name = some (.option o))
      (added : addOption ('-' :: '-' :: long) o value a = .ok a') (rest : Reads words a' b) :
      Reads (('-' :: '-' :: long) :: words) a b
  | option {long name value : Text} {o : OptionName} {words : List Text} {a a' b : Arguments}
      (split : splitValue long = (name, Option.none))
      (named : longNames.lookup name = some (.option o))
      (isValue : looksLikeOption value = false)
      (added : addOption ('-' :: '-' :: long) o value a = .ok a') (rest : Reads words a' b) :
      Reads (('-' :: '-' :: long) :: value :: words) a b
  | letters {c : Char} {cs : Text} {words : List Text} {a a' b : Arguments} (short : c ≠ '-')
      (added : readLetters (c :: cs) a = .ok (.inr a')) (rest : Reads words a' b) :
      Reads (('-' :: c :: cs) :: words) a b

theorem readLetters_ne_run (cs : Text) (a b : Arguments) :
    readLetters cs a ≠ .ok (.inl (.run b)) := by
  induction cs generalizing a with
  | nil => nofun
  | cons c cs ih =>
    intro h
    unfold readLetters at h
    split at h
    · cases h
    · cases h
    · obtain ⟨a', -, h⟩ := bind_eq_ok h
      exact ih a' h
    · cases h

theorem reads_of_read {words : List Text} {a b : Arguments} (h : read words a = .ok (.run b)) :
    Reads words a b := by
  induction hn : words.length using Nat.strongRecOn generalizing words a with
  | _ n ih =>
  subst hn
  have hrest {ws : List Text} {a' : Arguments} (hshort : ws.length < words.length)
      (hread : read ws a' = .ok (.run b)) : Reads ws a' b := ih _ hshort hread rfl
  clear ih
  revert h hrest
  fun_cases read words a <;> intro h hrest
  all_goals try cases h; done
  · cases h
    exact .nil b
  · cases h
    exact .stop b
  · next named split =>
    obtain ⟨a', added, hread⟩ := bind_eq_ok h
    exact .joined split named added (hrest (by simp) hread)
  · next named notOption split =>
    obtain ⟨a', added, hread⟩ := bind_eq_ok h
    exact .option split named (by simpa using notOption) added
      (hrest (by simp only [List.length_cons]; omega) hread)
  · next named split =>
    obtain ⟨a', added, hread⟩ := bind_eq_ok h
    exact .flag split named added (hrest (by simp) hread)
  · next short =>
    obtain ⟨command | a', added, hread⟩ := bind_eq_ok h
    · cases hread
      exact absurd added (readLetters_ne_run _ a b)
    · exact .letters short added (hrest (by simp) hread)

theorem ne_nil_of_named {long name : Text} {value? : Option Text} {n : Name}
    (split : splitValue long = (name, value?)) (named : longNames.lookup name = some n) :
    long ≠ [] := by
  rintro rfl
  cases split
  cases named

theorem read_of_reads {words : List Text} {a b : Arguments} (h : Reads words a b) :
    read words a = .ok (.run b) := by
  induction h with
  | nil a => rfl
  | stop a => rfl
  | flag split named added rest ih =>
    rw [read]
    · simp only [split, named, added]
      exact ih
    · exact ne_nil_of_named split named
  | joined split named added rest ih =>
    rw [read]
    · simp only [split, named, added]
      exact ih
    · exact ne_nil_of_named split named
  | option split named isValue added rest ih =>
    rw [read]
    · simp only [split, named, added, isValue]
      exact ih
    · exact ne_nil_of_named split named
  | letters short added rest ih =>
    rw [read]
    · simp only [added]
      exact ih
    · exact fun h _ => short h
    · exact short

theorem read_eq_run_iff {words : List Text} {a b : Arguments} :
    read words a = .ok (.run b) ↔ Reads words a b :=
  ⟨reads_of_read, read_of_reads⟩

def without (f : Flag) (a : Arguments) : Arguments := { a with flags := a.flags.filter (· ≠ f) }

@[simp] theorem value?_without (f : Flag) (o : OptionName) (a : Arguments) :
    (a.without f).value? o = a.value? o := rfl

@[simp] theorem has_without (f g : Flag) (a : Arguments) :
    (a.without f).has g = (a.has g && decide (g ≠ f)) := by
  rw [Bool.eq_iff_iff]
  simp [has, without]

variable {f g : Flag} {word long name : Text} {words : List Text} {a a' b : Arguments}

theorem without_of_addFlag (h : addFlag word f a = .ok a') : a'.without f = a.without f := by
  unfold addFlag at h
  split at h
  · cases h
  · cases h
    simp [without]

theorem addFlag_without (h : addFlag word f a = .ok a') (hne : f ≠ g) :
    addFlag word f (a.without g) = .ok (a'.without g) := by
  unfold addFlag at h ⊢
  split at h
  · cases h
  · next hnew =>
    cases h
    rw [has_without, if_neg (by simp [hnew])]
    simp [without, hne]

theorem addOption_without {o : OptionName} {value : Text} (h : addOption word o value a = .ok a') :
    addOption word o value (a.without g) = .ok (a'.without g) := by
  unfold addOption at h ⊢
  rw [value?_without]
  split at h
  · cases h
  · next hnew =>
    split at h
    · cases h
    · next hvalue =>
      cases h
      rw [if_neg hnew, if_neg hvalue]
      rfl

theorem ne_diff_of_letter {c : Char} (h : shortNames.lookup c = some (.flag f)) : f ≠ .diff := by
  rintro rfl
  obtain ⟨before, after, hnames, -⟩ := List.lookup_eq_some_iff.mp h
  have hmem : (c, Name.flag .diff) ∈ shortNames := by simp [hnames]
  simp [shortNames] at hmem

theorem readLetters_without {cs : Text} (h : readLetters cs a = .ok (.inr a')) :
    readLetters cs (a.without .diff) = .ok (.inr (a'.without .diff)) := by
  induction cs generalizing a with
  | nil =>
    cases h
    rfl
  | cons c cs ih =>
    unfold readLetters at h ⊢
    split at h
    · cases h
    · cases h
    · next f hletter =>
      obtain ⟨a₁, hadded, h⟩ := bind_eq_ok h
      rw [addFlag_without hadded (ne_diff_of_letter hletter)]
      exact ih h
    · cases h

theorem name_of_splitValue (h : splitValue long = (name, Option.none)) : name = long := by
  obtain ⟨hname, hvalue⟩ := Prod.mk.inj h
  have happend : _ ++ long.drop (long.takeWhile (· ≠ '=')).length = long :=
    List.prefix_iff_eq_append.mp (List.takeWhile_prefix _)
  split at hvalue
  · next hdrop => rw [← happend, hdrop, List.append_nil, hname]
  · cases hvalue

theorem eq_of_named_diff (h : longNames.lookup name = some (.flag .diff)) :
    name = "diff".toList := by
  obtain ⟨before, after, hnames, -⟩ := List.lookup_eq_some_iff.mp h
  have hmem : (name, Name.flag .diff) ∈ longNames := by simp [hnames]
  simpa [longNames] using hmem

def diffWord : Text := "--diff".toList

theorem long_of_diffWord (h : '-' :: '-' :: long = diffWord) : long = "diff".toList := by
  simpa [diffWord] using h

/-- A valid command line stays valid when the word that asks for a diff is left out. -/
theorem Reads.without_diff (h : Reads words a b) :
    Reads (words.filter (· ≠ diffWord)) (a.without .diff) (b.without .diff) := by
  have hkeep {word : Text} (hword : word ≠ diffWord) (words : List Text) :
      (word :: words).filter (· ≠ diffWord) = word :: words.filter (· ≠ diffWord) :=
    List.filter_cons_of_pos (decide_eq_true hword)
  induction h with
  | nil a => exact .nil _
  | stop a => exact .stop _
  | @flag long name f words a a' b split named added rest ih =>
    by_cases hf : f = .diff
    · subst hf
      obtain rfl := name_of_splitValue split
      obtain rfl := eq_of_named_diff named
      rw [without_of_addFlag added] at ih
      exact ih
    · have hword : '-' :: '-' :: long ≠ diffWord := by
        rintro heq
        obtain rfl := long_of_diffWord heq
        cases split
        cases named
        exact hf rfl
      rw [hkeep hword]
      exact .flag split named (addFlag_without added hf) ih
  | @joined long name value o words a a' b split named added rest ih =>
    have hword : '-' :: '-' :: long ≠ diffWord := by
      rintro heq
      obtain rfl := long_of_diffWord heq
      cases split
    rw [hkeep hword]
    exact .joined split named (addOption_without added) ih
  | @option long name value o words a a' b split named isValue added rest ih =>
    have hword : '-' :: '-' :: long ≠ diffWord := by
      rintro heq
      obtain rfl := long_of_diffWord heq
      cases split
      cases named
    have hvalue : value ≠ diffWord := by
      rintro rfl
      cases isValue
    rw [hkeep hword, hkeep hvalue]
    exact .option split named isValue (addOption_without added) ih
  | @letters c cs words a a' b short added rest ih =>
    have hword : '-' :: c :: cs ≠ diffWord := by
      rintro heq
      simp [diffWord, short] at heq
    rw [hkeep hword]
    exact .letters short (readLetters_without added) ih

end VersionDrift.Arguments

import VersionDrift.Files.Disk
import VersionDrift.Proofs.Text.Split

/-!
# Following a path

A path that is not followed to its end leads nowhere. Steps after a path are followed from
where it leads, so what a directory holds is found under the path of the directory and its
own name.
-/

set_option autoImplicit false

namespace VersionDrift

namespace Text

theorem splitAt_append_cons (c : Char) (s t : Text) :
    splitAt c (s ++ c :: t) = splitAt c s ++ splitAt c t := by
  induction s with
  | nil => simp [splitAt]
  | cons d s ih =>
    by_cases hd : d = c
    · simp [splitAt, hd, ih]
    · obtain ⟨piece, pieces, hsplit⟩ := List.exists_cons_of_ne_nil (splitAt_ne_nil c s)
      simp [splitAt, hd, ih, hsplit]

end Text

namespace Path

structure IsName (name : Text) : Prop where
  ne_nil : name ≠ []
  ne_self : name ≠ ['.']
  ne_parent : name ≠ ['.', '.']
  noSlash : '/' ∉ name
  noNul : '\x00' ∉ name
  short : Text.byteCount name ≤ Disk.nameLimit

theorem isAbsolute_eq_false {name : Text} (h : IsName name) : isAbsolute name = false := by
  obtain ⟨c, t, rfl⟩ := List.exists_cons_of_ne_nil h.ne_nil
  have hc : c ≠ '/' := fun hslash => h.noSlash (hslash ▸ List.mem_cons_self)
  simpa [isAbsolute] using hc

theorem join_eq {root name : Text} (hroot : root ≠ []) (hname : IsName name) :
    (∃ r, root = r ++ ['/'] ∧ join root name = r ++ '/' :: name) ∨
      root.getLast? ≠ some '/' ∧ join root name = root ++ '/' :: name := by
  rw [join, isAbsolute_eq_false hname, Bool.false_or, if_neg (by simpa using hroot)]
  by_cases hslash : root.getLast? = some '/'
  · obtain ⟨r, rfl⟩ := List.getLast?_eq_some_iff.mp hslash
    exact .inl ⟨r, rfl, by rw [if_pos hslash, List.append_assoc]; rfl⟩
  · exact .inr ⟨hslash, if_neg hslash⟩

theorem steps_append_name {name : Text} (hname : IsName name) (r : Text) :
    steps (r ++ '/' :: name) = (Text.splitAt '/' r).filter (fun n => !n.isEmpty) ++ [name] := by
  have hlast : (r ++ '/' :: name).getLast? ≠ some '/' := by
    obtain ⟨t, c, rfl⟩ := (List.eq_nil_or_concat name).resolve_left hname.ne_nil
    rw [List.concat_eq_append, ← List.cons_append, ← List.append_assoc, List.getLast?_concat]
    exact fun h => hname.noSlash (by rw [← Option.some.inj h]; simp)
  rw [steps, if_neg hlast, Text.splitAt_append_cons, Text.splitAt_of_not_mem hname.noSlash,
    List.filter_append]
  simp [hname.ne_nil]

theorem steps_join {root name : Text} (hroot : root ≠ []) (hname : IsName name) :
    ∃ names last, steps (join root name) = names ++ [name] ∧ steps root = names ++ last ∧
      (last = [] ∨ last = [['.']]) := by
  rcases join_eq hroot hname with ⟨r, rfl, hjoin⟩ | ⟨hslash, hjoin⟩
  · refine ⟨_, _, by rw [hjoin, steps_append_name hname], ?_, .inr rfl⟩
    rw [steps, if_pos (by simp), Text.splitAt_append_cons]
    simp [Text.splitAt]
  · refine ⟨_, _, by rw [hjoin, steps_append_name hname], ?_, .inl rfl⟩
    rw [steps, if_neg hslash, List.append_nil]

end Path

namespace Disk

variable {d : Disk} {follow : Location → List Text → Except FileError Location}

theorem walkWith_cons (d : Disk) (follow : Location → List Text → Except FileError Location)
    (l : Location) (name : Text) :
    (∃ e, e.isLookup = true ∧ ∀ names, d.walkWith follow l (name :: names) = .error e) ∨
    (∃ k, ∀ names, d.walkWith follow l (name :: names) = d.walkWith follow k names) ∨
    ∃ k steps, ∀ names, d.walkWith follow l (name :: names) = follow k (steps ++ names) := by
  simp only [walkWith]
  split
  · exact .inl ⟨_, rfl, fun _ => rfl⟩
  split
  · exact .inr (.inl ⟨_, fun _ => rfl⟩)
  split
  · exact .inr (.inl ⟨_, fun _ => rfl⟩)
  split
  · exact .inl ⟨_, rfl, fun _ => rfl⟩
  split
  · exact .inl ⟨_, rfl, fun _ => rfl⟩
  · exact .inr (.inr ⟨_, _, fun _ => rfl⟩)
  · exact .inr (.inl ⟨_, fun _ => rfl⟩)

/-- Steps that come first fail whatever follows, or what follows goes on from where they lead. -/
def Passes (d : Disk) (walked : List Text → Except FileError Location) : Prop :=
  (∃ e, e.isLookup = true ∧ ∀ more, walked more = .error e) ∨
    ∃ links k, ∀ more, walked more = d.walk links k more

theorem passes_walkWith (hwalk : ∃ links, d.walkWith follow = d.walk links)
    (hfollow : ∀ l names, d.Passes fun more => follow l (names ++ more)) (l : Location)
    (names : List Text) : d.Passes fun more => d.walkWith follow l (names ++ more) := by
  induction names generalizing l with
  | nil =>
    obtain ⟨links, hwalk⟩ := hwalk
    exact .inr ⟨links, l, fun more => by rw [hwalk]; rfl⟩
  | cons name names ih =>
    simp only [List.cons_append]
    rcases walkWith_cons d follow l name with
      ⟨e, he, hstep⟩ | ⟨k, hstep⟩ | ⟨k, steps, hstep⟩
    · exact .inl ⟨e, he, fun more => hstep _⟩
    · simpa only [hstep] using ih k
    · simpa only [hstep, List.append_assoc] using hfollow k (steps ++ names)

theorem passes_walk (links : Nat) (l : Location) (names : List Text) :
    d.Passes fun more => d.walk links l (names ++ more) := by
  induction links generalizing l names with
  | zero =>
    have hnone (l : Location) (names : List Text) :
        d.Passes fun _ => (.error .tooManyLinks : Except FileError Location) :=
      .inl ⟨_, rfl, fun _ => rfl⟩
    exact passes_walkWith ⟨0, rfl⟩ hnone l names
  | succ links ih => exact passes_walkWith ⟨links + 1, rfl⟩ ih l names

@[simp] theorem walk_nil (links : Nat) (l : Location) : d.walk links l [] = .ok l := by
  cases links <;> rfl

theorem isLookup_of_walk {links : Nat} {l : Location} {names : List Text} {e : FileError}
    (h : d.walk links l names = .error e) : e.isLookup = true := by
  rw [← List.append_nil names] at h
  rcases d.passes_walk links l names with ⟨e', he, hfails⟩ | ⟨_, _, hwalk⟩
  · rwa [← Except.error.inj ((hfails []).symm.trans h)]
  · have hok := (hwalk []).symm.trans h
    rw [walk_nil] at hok
    cases hok

theorem isLookup_of_resolve {path : Text} {e : FileError} (h : d.resolve path = .error e) :
    e.isLookup = true := by
  unfold resolve at h
  split at h
  · rw [← Except.error.inj h]; rfl
  split at h
  · rw [← Except.error.inj h]; rfl
  split at h
  · rw [← Except.error.inj h]; rfl
  · exact isLookup_of_walk h

theorem resolve_eq_ok {path : Text} {l : Location} : d.resolve path = .ok l ↔
    '\x00' ∉ path ∧ path ≠ [] ∧ Text.byteCount path ≤ pathLimit ∧
      d.walk linkLimit (start d.workDir path) (Path.steps path) = .ok l := by
  unfold resolve
  split
  · next hnul => exact iff_of_false nofun fun h => h.1 hnul
  split
  · next hempty => exact iff_of_false nofun fun h => h.2.1 (by simpa using hempty)
  split
  · next hlong => exact iff_of_false nofun fun h => Nat.not_lt.mpr h.2.2.1 hlong
  · next hnul hempty hfits =>
    exact ⟨fun h => ⟨hnul, by simpa using hempty, Nat.not_lt.mp hfits, h⟩, fun h => h.2.2.2⟩

theorem walk_name {links : Nat} {l : Location} {name : Text} {e : Entry} (hname : Path.IsName name)
    (hl : d.entry? l = some .directory) (he : d.entry? (name :: l) = some e)
    (hlink : ∀ target, e ≠ .link target) : d.walk links l [name] = .ok (name :: l) := by
  have hstep (follow : Location → List Text → Except FileError Location) :
      d.walkWith follow l [name] = .ok (name :: l) := by
    have hshort : ¬ nameLimit < Text.byteCount name := Nat.not_lt.mpr hname.short
    cases e with
    | link target => exact absurd rfl (hlink target)
    | file mode content => simp [walkWith, hl, he, hname.ne_self, hname.ne_parent, hshort]
    | directory => simp [walkWith, hl, he, hname.ne_self, hname.ne_parent, hshort]
  cases links <;> exact hstep _

theorem eq_of_walk_self {links : Nat} {l k : Location} (h : d.walk links l [['.']] = .ok k) :
    l = k := by
  have hstep (follow : Location → List Text → Except FileError Location)
      (h : d.walkWith follow l [['.']] = .ok k) : l = k := by
    simp only [walkWith] at h
    split at h
    · cases h
    · exact Except.ok.inj h
  cases links <;> exact hstep _ h

theorem exists_walk_append {links : Nat} {l k : Location} {names last : List Text}
    (h : d.walk links l (names ++ last) = .ok k) (hlast : last = [] ∨ last = [['.']]) :
    ∃ links', ∀ more, d.walk links l (names ++ more) = d.walk links' k more := by
  rcases d.passes_walk links l names with ⟨e, -, hfails⟩ | ⟨links', k', hpasses⟩
  · cases (hfails last).symm.trans h
  · have hk : d.walk links' k' last = .ok k := (hpasses last).symm.trans h
    obtain rfl : k' = k := by
      rcases hlast with rfl | rfl
      · rw [walk_nil] at hk
        exact Except.ok.inj hk
      · exact eq_of_walk_self hk
    exact ⟨links', hpasses⟩

theorem resolve_name {name : Text} {e : Entry} (hname : Path.IsName name)
    (hl : d.entry? d.workDir = some .directory) (he : d.entry? (name :: d.workDir) = some e)
    (hlink : ∀ target, e ≠ .link target) (hfits : Text.byteCount name ≤ pathLimit) :
    d.resolve name = .ok (name :: d.workDir) := by
  have hstart : start d.workDir name = d.workDir := by
    rw [start, Path.isAbsolute_eq_false hname]
    rfl
  have hsteps : Path.steps name = [name] := by
    have hslash : name.getLast? ≠ some '/' := fun h => hname.noSlash (List.mem_of_getLast? h)
    rw [Path.steps, if_neg hslash, Text.splitAt_of_not_mem hname.noSlash]
    simp [hname.ne_nil]
  refine resolve_eq_ok.mpr ⟨hname.noNul, hname.ne_nil, hfits, ?_⟩
  rw [hstart, hsteps]
  exact walk_name hname hl he hlink

theorem resolve_join {root name : Text} {l : Location} {e : Entry} (hname : Path.IsName name)
    (hroot : d.resolve root = .ok l) (hl : d.entry? l = some .directory)
    (he : d.entry? (name :: l) = some e) (hlink : ∀ target, e ≠ .link target)
    (hfits : Text.byteCount (Path.join root name) ≤ pathLimit) :
    d.resolve (Path.join root name) = .ok (name :: l) := by
  obtain ⟨hnul, hne, -, hwalk⟩ := resolve_eq_ok.mp hroot
  obtain ⟨names, last, hjoin, hsteps, hlast⟩ := Path.steps_join hne hname
  rw [hsteps] at hwalk
  obtain ⟨links, hpasses⟩ := exists_walk_append hwalk hlast
  obtain ⟨t, ht, hnul'⟩ : ∃ t, Path.join root name = root ++ t ∧ '\x00' ∉ t := by
    rcases Path.join_eq hne hname with ⟨r, rfl, h⟩ | ⟨-, h⟩
    · exact ⟨name, by rw [h, List.append_assoc]; rfl, hname.noNul⟩
    · exact ⟨'/' :: name, h, by simpa using hname.noNul⟩
  have hstart : start d.workDir (Path.join root name) = start d.workDir root := by
    obtain ⟨c, u, rfl⟩ := List.exists_cons_of_ne_nil hne
    rw [ht]
    rfl
  refine resolve_eq_ok.mpr ⟨by simp [ht, hnul, hnul'], by simp [ht, hne], hfits, ?_⟩
  rw [hstart, hjoin, hpasses]
  exact walk_name hname hl he hlink

/-- The root leads to a directory with something under the name that is no link. The empty root is
the working directory. -/
def Holds (d : Disk) (root name : Text) : Prop :=
  ∃ l e, (if root = [] then .ok d.workDir else d.resolve root) = .ok l ∧
    d.entry? l = some .directory ∧ d.entry? (name :: l) = some e ∧ ∀ target, e ≠ .link target

/-- What a directory holds under a name is found under its path and the name. -/
theorem exists_resolve_of_holds {root name : Text} (hname : Path.IsName name)
    (h : d.Holds root name) (hfits : Text.byteCount (Path.join root name) ≤ pathLimit) :
    ∃ k, d.resolve (Path.join root name) = .ok k := by
  obtain ⟨l, e, hroot, hl, he, hlink⟩ := h
  split at hroot
  · next hempty =>
    obtain rfl := Except.ok.inj hroot
    have hjoin : Path.join root name = name := by simp [Path.join, hempty]
    rw [hjoin] at hfits ⊢
    exact ⟨_, resolve_name hname hl he hlink hfits⟩
  · exact ⟨_, resolve_join hname hroot hl he hlink hfits⟩

end Disk
end VersionDrift

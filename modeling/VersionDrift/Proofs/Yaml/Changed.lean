import VersionDrift.Proofs.Yaml.Parts

/-!
# One entry changed

A value that is read from a document has no key twice. So if it differs from another
in one leaf, and the entries of a key differ, then the other value is this one with
that entry changed.
-/

set_option autoImplicit false

namespace VersionDrift.Yaml

namespace Value

def changeEntry (key : Text) (f : Value → Value) : List (Value × Value) → List (Value × Value)
  | [] => []
  | (.string k, x) :: es =>
    if k = key then (.string k, f x) :: es else (.string k, x) :: changeEntry key f es
  | e :: es => e :: changeEntry key f es

/-- A mapping with another value for the string `key`, tags at the top set aside. -/
def change (key : Text) (f : Value → Value) : Value → Value
  | mapping es => mapping (changeEntry key f es)
  | tagged tag x => tagged tag (change key f x)
  | x => x

variable {key new : Text} {f : Value → Value} {es fs : List (Value × Value)} {k x y : Value}
  {n : Nat}

@[simp] theorem entry?_cons_self : Value.entry? key ((.string key, x) :: es) = some x := by
  rw [Value.entry?, if_pos rfl]

theorem entry?_cons_of_ne (hk : k ≠ .string key) :
    Value.entry? key ((k, x) :: es) = Value.entry? key es := by
  cases k with
  | string s => rw [Value.entry?, if_neg fun hs => hk (by rw [hs])]
  | _ => rfl

@[simp] theorem changeEntry_cons_self :
    changeEntry key f ((.string key, x) :: es) = (.string key, f x) :: es := by
  rw [changeEntry, if_pos rfl]

theorem changeEntry_cons_of_ne (hk : k ≠ .string key) :
    changeEntry key f ((k, x) :: es) = (k, x) :: changeEntry key f es := by
  cases k with
  | string s => rw [changeEntry, if_neg fun hs => hk (by rw [hs])]
  | _ => rfl

theorem mem_of_entry_eq_some (h : Value.entry? key es = some x) : (.string key, x) ∈ es := by
  induction es with
  | nil => cases h
  | cons p es ih =>
    obtain ⟨k, z⟩ := p
    by_cases hk : k = .string key
    · rw [hk, entry?_cons_self] at h
      cases h
      simp [hk]
    · rw [entry?_cons_of_ne hk] at h
      exact List.mem_cons_of_mem _ (ih h)

theorem entry?_changeEntry (h : Value.entry? key es = some x) :
    Value.entry? key (changeEntry key f es) = some (f x) := by
  induction es with
  | nil => cases h
  | cons p es ih =>
    obtain ⟨k, z⟩ := p
    by_cases hk : k = .string key
    · rw [hk, entry?_cons_self] at h
      cases h
      rw [hk, changeEntry_cons_self, entry?_cons_self]
    · rw [entry?_cons_of_ne hk] at h
      rw [changeEntry_cons_of_ne hk, entry?_cons_of_ne hk, ih h]

theorem changeEntry_congr {g : Value → Value} (h : Value.entry? key es = some x) (hx : f x = g x) :
    changeEntry key f es = changeEntry key g es := by
  induction es with
  | nil => rfl
  | cons p es ih =>
    obtain ⟨k, z⟩ := p
    by_cases hk : k = .string key
    · rw [hk, entry?_cons_self] at h
      cases h
      rw [hk, changeEntry_cons_self, changeEntry_cons_self, hx]
    · rw [entry?_cons_of_ne hk] at h
      rw [changeEntry_cons_of_ne hk, changeEntry_cons_of_ne hk, ih h]

theorem changeEntry_self (h : Value.entry? key es = some x) (hx : f x = x) :
    changeEntry key f es = es := by
  induction es with
  | nil => cases h
  | cons p es ih =>
    obtain ⟨k, z⟩ := p
    by_cases hk : k = .string key
    · rw [hk, entry?_cons_self] at h
      cases h
      rw [hk, changeEntry_cons_self, hx]
    · rw [entry?_cons_of_ne hk] at h
      rw [changeEntry_cons_of_ne hk, ih h]

theorem countEntries_changeEntry (t : Text) (h : Value.entry? key es = some x) :
    countEntries t (changeEntry key f es) + count t x = countEntries t es + count t (f x) := by
  induction es with
  | nil => cases h
  | cons p es ih =>
    obtain ⟨k, z⟩ := p
    by_cases hk : k = .string key
    · rw [hk, entry?_cons_self] at h
      cases h
      rw [hk, changeEntry_cons_self, countEntries, countEntries]
      omega
    · rw [entry?_cons_of_ne hk] at h
      have ih := ih h
      rw [changeEntry_cons_of_ne hk, countEntries, countEntries]
      omega

theorem untagged_change (h : x.untagged = .mapping es) :
    (x.change key f).untagged = .mapping (changeEntry key f es) := by
  induction x using Value.untagged.induct with
  | case1 tag x ih => exact ih h
  | case2 x hx =>
    cases x with
    | tagged tag x => exact absurd rfl (hx tag x)
    | mapping es' =>
      cases h
      rfl
    | _ => cases h

theorem change_self (h : x.untagged = .mapping es) (hes : changeEntry key f es = es) :
    x.change key f = x := by
  induction x using Value.untagged.induct with
  | case1 tag x ih => rw [change, ih h]
  | case2 x hx =>
    cases x with
    | tagged tag x => exact absurd rfl (hx tag x)
    | mapping es' =>
      cases h
      rw [change, hes]
    | _ => cases h

theorem count_of_untagged (t : Text) (h : x.untagged = .mapping es) :
    x.count t = countEntries t es := by
  induction x using Value.untagged.induct with
  | case1 tag x ih =>
    rw [count]
    exact ih h
  | case2 x hx =>
    cases x with
    | tagged tag x => exact absurd rfl (hx tag x)
    | mapping es' =>
      cases h
      rw [count]
    | _ => cases h

theorem Edited.untagged (h : Edited new n x y) (hx : x.untagged = .mapping es) :
    ∃ fs, y.untagged = .mapping fs ∧ Summed (Paired (Edited new)) n es fs ∧
      ∀ key f, fs = changeEntry key f es → y = x.change key f := by
  induction x using Value.untagged.induct generalizing y with
  | case1 tag x ih =>
    cases h with
    | kept _ leaf => cases leaf
    | string _ leaf => cases leaf
    | tagged _ h =>
      obtain ⟨fs, hy, hfs, hchange⟩ := ih h hx
      exact ⟨fs, hy, hfs, fun key f hf => by rw [change, hchange key f hf]⟩
  | case2 x hne =>
    cases h with
    | kept _ leaf =>
      cases x with
      | mapping es' => cases leaf
      | tagged tag x => cases leaf
      | _ => cases hx
    | string _ leaf =>
      cases x with
      | mapping es' => cases leaf
      | tagged tag x => cases leaf
      | _ => cases hx
    | sequence => cases hx
    | mapping entries =>
      cases hx
      exact ⟨_, rfl, entries, fun key f hf => by rw [change, hf]⟩
    | tagged tag => exact absurd rfl (hne tag _)

theorem Edited.changeEntry (hkey : key ≠ new) (hes : DistinctKeys es)
    (h : Summed (Paired (Edited new)) n es fs) (hn : n ≤ 1) (hx : Value.entry? key es = some x)
    (hy : Value.entry? key fs = some y) (hne : y ≠ x) :
    n = 1 ∧ Edited new 1 x y ∧ fs = Value.changeEntry key (fun _ => y) es := by
  induction h with
  | nil => cases hx
  | @cons i j p q es fs head tail ih =>
    have hkept : j = 0 → fs = es :=
      (tail.eq_iff fun _ _ _ h => h.eq_iff fun _ _ _ h => h.eq_iff).mpr
    obtain ⟨hfirst, hrest⟩ := List.pairwise_cons.mp hes
    cases head with
    | @mk i₁ i₂ k z k' z' fst snd =>
      by_cases hk : k = .string key
      · subst hk
        rw [entry?_cons_self] at hx
        cases hx
        cases fst with
        | kept =>
          rw [entry?_cons_self] at hy
          cases hy
          have hi : i₂ ≠ 0 := fun hi => hne (snd.eq_iff.mpr hi)
          obtain rfl : i₂ = 1 := by omega
          rw [hkept (by omega), changeEntry_cons_self]
          exact ⟨by omega, snd, rfl⟩
        | string =>
          -- the key itself is the leaf, so the key would have to occur again
          have hk' : Value.string new ≠ .string key := fun h => hkey (Value.string.inj h).symm
          rw [entry?_cons_of_ne hk', hkept (by omega)] at hy
          have hsame := hfirst _ (mem_of_entry_eq_some hy)
          simp [same] at hsame
      · have hk' : k' ≠ .string key := by
          intro hk'
          subst hk'
          cases fst with
          | kept => exact hk rfl
          | string => exact hkey rfl
        rw [entry?_cons_of_ne hk] at hx
        rw [entry?_cons_of_ne hk'] at hy
        obtain ⟨rfl, hedited, hfs⟩ := ih hrest (by omega) hx hy
        obtain rfl : i₁ = 0 := by omega
        obtain rfl : i₂ = 0 := by omega
        rw [fst.eq_iff.mpr rfl, snd.eq_iff.mpr rfl, changeEntry_cons_of_ne hk, ← hfs]
        exact ⟨by omega, hedited, rfl⟩

end Value

namespace Document

variable {old new : Text} {n : Nat} {d d' : Document} {x x' : Value}

/-- Every anchor that the document follows stands for the same node in the other one. -/
def Kept (d d' : Document) : Prop := Node.Kept d.anchors d'.anchors d.root

def KeysAvoid (t : Text) (d : Document) : Prop :=
  d.root.KeysAvoid t ∧ ∀ k x, d.anchors.node? k = some x → x.KeysAvoid t

/-- A document that differs in leaves from one with a value has a value that differs in leaves,
unless a key occurs twice, and that takes a key that is no scalar or is a leaf itself. -/
theorem value_edited (hnew : Resolution.OnlyString new) (hne : old ≠ new)
    (h : Edited old new n d d') (hx : d.value = .ok x) :
    (∃ x', d'.value = .ok x' ∧ Resolution.Excess (Value.Edited new) n (d.Kept d') x x') ∨
      (d'.value = .error .repeatedKey ∧ ¬ d.KeysAvoid old) := by
  obtain ⟨r, hr⟩ := value_eq_ok hx
  have halike := Resolution.value_alike (H := d.KeysAvoid old) hnew hne h.anchors
    (fun hkeys => hkeys.2) Resolution.depthLimit false n d.root d'.root h.root
    (fun hkeys => hkeys.1)
  unfold Document.value Node.value
  rw [h.size, StateT.run'_eq]
  rcases halike _ x r hr with ⟨x', hx', hexcess⟩ | ⟨he, hkeys⟩
  · rw [hx']
    exact .inl ⟨x', rfl, hexcess⟩
  · rw [he]
    exact .inr ⟨rfl, hkeys⟩

theorem values_edited (hnew : Resolution.OnlyString new) (hne : old ≠ new)
    (h : Edited old new n d d') (hx : d.value = .ok x) (hx' : d'.value = .ok x') :
    Resolution.Excess (Value.Edited new) n (d.Kept d') x x' := by
  rcases value_edited hnew hne h hx with ⟨y, hy, hexcess⟩ | ⟨he, -⟩
  · cases hx'.symm.trans hy
    exact hexcess
  · cases hx'.symm.trans he

end Document
end VersionDrift.Yaml

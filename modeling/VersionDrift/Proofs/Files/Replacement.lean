import Mathlib.Tactic.ByContra
import VersionDrift.Files.Access
import VersionDrift.Proofs.Except

/-!
# Replacing a file

The temporary file of a replacement is gone in the end: the disk is the old one with
one entry put anew. Links and directories stay, so every path leads where it led
before, and the replaced file reads as the text that was written.
-/

set_option autoImplicit false

namespace VersionDrift.Disk

theorem lookup_cons_eq_ite (k j : Location) (e : Entry) (es : List (Location × Entry)) :
    ((j, e) :: es).lookup k = if k = j then some e else es.lookup k := by
  rw [List.lookup_cons]
  by_cases h : k = j
  · simp [h]
  · rw [if_neg h, beq_eq_false_iff_ne.mpr h]

theorem lookup_putEntry (l k : Location) (e : Entry) (es : List (Location × Entry)) :
    (putEntry l e es).lookup k = if k = l then some e else es.lookup k := by
  induction es with
  | nil => rw [putEntry, lookup_cons_eq_ite]
  | cons p es ih =>
    obtain ⟨j, f⟩ := p
    unfold putEntry
    by_cases hj : j = l
    · rw [if_pos hj, lookup_cons_eq_ite, lookup_cons_eq_ite, hj]
      split <;> rfl
    · rw [if_neg hj, lookup_cons_eq_ite, lookup_cons_eq_ite, ih]
      by_cases hk : k = j
      · rw [if_pos hk, if_neg (by rw [hk]; exact hj), if_pos hk]
      · rw [if_neg hk, if_neg hk]

@[simp] theorem entry?_put {l : Location} (hl : l ≠ []) (d : Disk) (k : Location) (e : Entry) :
    Disk.entry? (d.put l e) k = if k = l then some e else d.entry? k := by
  cases k with
  | nil => simp [Disk.entry?, hl.symm]
  | cons n k => exact lookup_putEntry l (n :: k) e d.entries

@[simp] theorem putEntry_putEntry (l : Location) (e f : Entry) (es : List (Location × Entry)) :
    putEntry l f (putEntry l e es) = putEntry l f es := by
  induction es with
  | nil => simp [putEntry]
  | cons p es ih =>
    obtain ⟨j, g⟩ := p
    by_cases h : j = l <;> simp [putEntry, h, ih]

@[simp]
theorem put_put (d : Disk) (l : Location) (e f : Entry) : (d.put l e).put l f = d.put l f := by
  simp [put]

theorem putEntry_of_lookup_none {l : Location} {es : List (Location × Entry)}
    (h : es.lookup l = none) (e : Entry) : putEntry l e es = es ++ [(l, e)] := by
  induction es with
  | nil => rfl
  | cons p es ih =>
    obtain ⟨j, g⟩ := p
    rw [lookup_cons_eq_ite] at h
    by_cases hj : l = j
    · simp [hj] at h
    · rw [if_neg hj] at h
      simp [putEntry, Ne.symm hj, ih h]

theorem remove_put {d : Disk} {l : Location} (hl : l ≠ []) (hfree : d.entry? l = none) (e : Entry) :
    (d.put l e).remove l = d := by
  have hlookup : d.entries.lookup l = none := by
    cases l with
    | nil => exact absurd rfl hl
    | cons n l => exact hfree
  have hkeys : d.entries.filter (fun p => decide (p.1 ≠ l)) = d.entries := by
    apply List.filter_eq_self.mpr
    intro p hp
    have hne : l ≠ p.1 := by simpa using List.lookup_eq_none_iff.mp hlookup p hp
    exact decide_eq_true hne.symm
  have hall : (d.entries ++ [(l, e)]).filter (fun p => decide (p.1 ≠ l)) = d.entries := by
    rw [List.filter_append, hkeys]
    simp
  simp only [put, remove, putEntry_of_lookup_none hlookup, hall]

theorem temporaryName_injective {m n : Nat} (h : temporaryName m = temporaryName n) : m = n := by
  have hdigits : Nat.toDigits 10 m = Nat.toDigits 10 n := by
    simpa [temporaryName, Decimal.ofNat] using h
  have := congrArg (Nat.ofDigitChars 10 · 0) hdigits
  simpa using this

/-- One temporary name more than there are entries: one of them is free. -/
theorem exists_free (d : Disk) (directory : Location) : ∃ l, d.free? directory = some l := by
  apply Option.isSome_iff_exists.mp
  rw [free?, List.find?_isSome]
  by_contra hnone
  let names := (List.range (d.entries.length + 1)).map fun n => temporaryName n :: directory
  have hdistinct : names.Nodup := by
    refine List.Pairwise.map _ (fun m n hmn h => ?_) List.nodup_range
    exact hmn (temporaryName_injective (List.cons.inj h).1)
  have htaken : names ⊆ d.entries.map (·.1) := by
    intro l hl
    have hsome : (d.entry? l).isSome := by
      by_contra hfree
      exact hnone ⟨l, hl, by simpa using hfree⟩
    obtain ⟨n, -, rfl⟩ := List.mem_map.mp hl
    obtain ⟨p, hp, hk⟩ := List.lookup_isSome_iff.mp (show (d.entries.lookup _).isSome from hsome)
    exact List.mem_map.mpr ⟨p, hp, (by simpa using hk : _ = p.1).symm⟩
  have hlength := List.Nodup.length_le_of_subset hdistinct htaken
  simp only [names, List.length_map, List.length_range] at hlength
  omega

theorem free?_spec {d : Disk} {directory l : Location} (h : d.free? directory = some l) :
    l ≠ [] ∧ d.entry? l = none := by
  have hfree := List.find?_some h
  obtain ⟨n, -, rfl⟩ := List.mem_map.mp (List.mem_of_find?_eq_some h)
  exact ⟨by simp, by simpa using hfree⟩

/-- What is left of a replacement: one entry is put anew, with the mode it had. -/
theorem replace_eq_put {d : Disk} {path content : Text} {l : Location} {mode : Nat}
    {old : ByteArray} (hl : d.resolve path = .ok l) (hfile : d.entry? l = some (.file mode old)) :
    d.replace path content = .ok (d.put l (.file mode (String.ofList content).toUTF8)) := by
  obtain ⟨t, ht⟩ := d.exists_free l.tail
  obtain ⟨hroot, hfree⟩ := free?_spec ht
  have hne : l ≠ t := fun h => by rw [h, hfree] at hfile; cases hfile
  have hwrite (e : Entry) : Disk.entry? (d.put t e) t = some e := by simp [entry?_put hroot]
  have htarget (e : Entry) : Disk.entry? (d.put t e) l = some (.file mode old) := by
    rw [entry?_put hroot, if_neg hne, hfile]
  simp only [replace, hl, ht, hfile, ok_bind, write, hwrite, setMode, put_put, rename,
    htarget]
  rw [remove_put hroot hfree]

/-- Two disks with the same places: only contents and modes of files differ. -/
def SameTree (d d' : Disk) : Prop :=
  d'.workDir = d.workDir ∧ ∀ k, d'.entry? k = d.entry? k ∨
    ∃ mode mode' content content', d.entry? k = some (.file mode content) ∧
      d'.entry? k = some (.file mode' content')

theorem SameTree.walkWith {d d' : Disk} (h : SameTree d d')
    (follow : Location → List Text → Except FileError Location) (l : Location) (names : List Text) :
    d'.walkWith follow l names = d.walkWith follow l names := by
  induction names generalizing l with
  | nil => rfl
  | cons name names ih =>
    have hdirectory : (d'.entry? l ≠ some .directory) ↔ (d.entry? l ≠ some .directory) := by
      rcases h.2 l with heq | ⟨_, _, _, _, hd, hd'⟩
      · rw [heq]
      · rw [hd, hd']; simp
    unfold Disk.walkWith
    simp only [hdirectory, ih]
    rcases h.2 (name :: l) with heq | ⟨_, _, _, _, hd, hd'⟩
    · rw [heq]
    · rw [hd, hd']

theorem SameTree.walk {d d' : Disk} (h : SameTree d d') (links : Nat) (l : Location)
    (names : List Text) : d'.walk links l names = d.walk links l names := by
  induction links generalizing l names with
  | zero => exact h.walkWith _ l names
  | succ links ih =>
    have hfollow : d'.walk links = d.walk links := funext fun l => funext fun ns => ih l ns
    rw [Disk.walk, Disk.walk, hfollow]
    exact h.walkWith _ l names

theorem SameTree.resolve {d d' : Disk} (h : SameTree d d') (path : Text) :
    d'.resolve path = d.resolve path := by
  simp only [Disk.resolve, h.1, h.walk]

@[simp] theorem textOf_toUTF8 (t : Text) : textOf (String.ofList t).toUTF8 = .ok t := by
  simp [textOf]

theorem read_eq_ok_iff {d : Disk} {path t : Text} :
    d.read path = .ok t ↔ ∃ l mode content, d.resolve path = .ok l ∧
      d.entry? l = some (.file mode content) ∧ textOf content = .ok t := by
  constructor
  · intro h
    cases hl : d.resolve path with
    | error e => simp [Disk.read, hl] at h
    | ok l =>
      cases he : d.entry? l with
      | none => simp [Disk.read, hl, he] at h
      | some e =>
        cases e with
        | file mode content =>
          simp only [Disk.read, hl, he, ok_bind] at h
          exact ⟨l, mode, content, rfl, he, h⟩
        | directory => simp [Disk.read, hl, he] at h
        | link target => simp [Disk.read, hl, he] at h
  · rintro ⟨l, mode, content, hl, he, ht⟩
    simp [Disk.read, hl, he, ht]

/-- One file has another content, with the mode it had; all else is the same. -/
structure Exchanged (d d' : Disk) (l : Location) (before after : Text) : Prop where
  workDir : d'.workDir = d.workDir
  file : ∃ mode content, d.entry? l = some (.file mode content) ∧ textOf content = .ok before ∧
    d'.entry? l = some (.file mode (String.ofList after).toUTF8)
  others : ∀ k, k ≠ l → d'.entry? k = d.entry? k

/-- A file that can be read can be replaced, and nothing else changes. -/
theorem replace_of_read {d : Disk} {path before : Text} (h : d.read path = .ok before)
    (after : Text) : ∃ l d', d.resolve path = .ok l ∧ d.replace path after = .ok d' ∧
      Exchanged d d' l before after := by
  obtain ⟨l, mode, content, hl, he, ht⟩ := read_eq_ok_iff.mp h
  have hroot : l ≠ [] := by
    intro h
    rw [h] at he
    cases he
  refine ⟨l, _, hl, replace_eq_put hl he, rfl, ⟨mode, content, he, ht, ?_⟩, ?_⟩
  · simp [entry?_put hroot]
  · intro k hk
    simp [entry?_put hroot, hk]

theorem Exchanged.sameTree {d d' : Disk} {l : Location} {before after : Text}
    (h : Exchanged d d' l before after) : SameTree d d' := by
  refine ⟨h.workDir, fun k => ?_⟩
  by_cases hk : k = l
  · obtain ⟨mode, content, hd, -, hd'⟩ := h.file
    exact .inr ⟨mode, mode, content, _, by rw [hk, hd], by rw [hk, hd']⟩
  · exact .inl (h.others k hk)

theorem Exchanged.read {d d' : Disk} {l : Location} {before after path : Text}
    (h : Exchanged d d' l before after) (hl : d.resolve path = .ok l) :
    d'.read path = .ok after := by
  obtain ⟨mode, content, -, -, hd'⟩ := h.file
  exact read_eq_ok_iff.mpr
    ⟨l, mode, _, by rw [h.sameTree.resolve, hl], hd', textOf_toUTF8 after⟩

end VersionDrift.Disk

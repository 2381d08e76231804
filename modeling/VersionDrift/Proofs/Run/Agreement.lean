import VersionDrift.Proofs.Run.Convergence

/-!
# What agreement of the versions means

A run that finds or brings about agreement leaves a manifest that loads with the
version of the header. Where the document states a string, it is that version. A
number never spells a version with two points; where the document states one, the
version was taken from another place of the text.
-/

set_option autoImplicit false

namespace VersionDrift

namespace Decimal

@[simp] theorem count_point_ofNat (n : Nat) : (ofNat n).count '.' = 0 := by
  apply List.count_eq_zero.mpr
  intro h
  have := isDigit_of_mem_ofNat h
  cases this

@[simp] theorem count_point_ofInt (n : Int) : (ofInt n).count '.' = 0 := by
  cases n <;> simp [ofInt]

theorem count_point_positional {ds : Text} (hds : ds.count '.' = 0) (place : Int) :
    (positional ds place).count '.' = 1 := by
  have hsplit : (ds.take place.toNat).count '.' + (ds.drop place.toNat).count '.' = 0 := by
    rw [← List.count_append, List.take_append_drop, hds]
  unfold positional
  split
  · simp [hds, List.count_replicate]
  · split
    · simp
      omega
    · simp [hds, List.count_replicate]

end Decimal

namespace Yaml.Number

open Decimal

theorem count_point_layout {ds : Text} (hds : ds.count '.' = 0) (place : Int) :
    (layout ds place).count '.' ≤ 1 := by
  have hsplit : (ds.take 1).count '.' + (ds.drop 1).count '.' = 0 := by
    rw [← List.count_append, List.take_append_drop, hds]
  unfold layout
  split
  · exact Nat.le_of_eq (count_point_positional hds place)
  · have hhead : (ds.take 1).count '.' = 0 := by omega
    have htail : (ds.drop 1).count '.' = 0 := by omega
    split <;> simp only [List.count_append, List.count_cons, count_point_ofInt, hhead, htail] <;>
      decide

theorem count_point_text (n : Number) : n.text.count '.' ≤ 1 := by
  cases n with
  | integer n => simp [text]
  | float x =>
    cases x with
    | nan => decide
    | infinite negative => cases negative <;> decide
    | finite negative m q =>
      have hsign : (if negative then ['-'] else []).count '.' = 0 := by cases negative <;> rfl
      simp only [text, floatText]
      split
      · rw [List.count_append, hsign]
        decide
      · rw [List.count_append, hsign, Nat.zero_add]
        exact count_point_layout (count_point_ofNat _) _

theorem text_ne_dotted (n : Number) (v : Triple) : n.text ≠ v.dotted := by
  intro h
  have hn := n.count_point_text
  rw [h] at hn
  simp only [Triple.dotted, List.count_append, List.count_cons_self] at hn
  omega

end Yaml.Number

def Outcome.agrees : Outcome → Bool
  | .synced _ => true
  | .updated _ _ _ => true
  | .mismatch _ _ => false

namespace Disk

open Manifest (stated)
open Yaml (Value)

variable {s : Settings} {d d' : Disk}

/-- After agreement the manifest loads with the version of the header. -/
theorem load_of_agrees {mode : Mode} {wantsDiff : Bool} {o : Outcome}
    (h : d.run s mode wantsDiff = (.ok o, d')) (ho : o.agrees = true) :
    ∃ v source m, HeaderStates s d v ∧ d'.read s.manifestPath = .ok source ∧
      Manifest.load source = .ok m ∧ m.version = v.dotted := by
  rcases run_cases d s mode wantsDiff with ⟨f, hrun⟩ | ⟨header, v, before, m, hheader, hversion,
    hbefore, hm, ⟨hv, hrun⟩ | ⟨-, -, mismatch, diff, hrun⟩ |
      ⟨-, -, new, diff, l, d₁, hnew, hl, hexchanged, hrun⟩⟩
  · rw [hrun] at h
    cases h
  · rw [hrun] at h
    cases h
    exact ⟨v, before, m, ⟨header, hheader, hversion⟩, hbefore, hm, hv.symm⟩
  · rw [hrun] at h
    cases h
    cases ho
  · rw [hrun] at h
    cases h
    obtain ⟨-, -, -, -, hload, hnewVersion⟩ := Manifest.rewriteWith_eq_ok hnew
    exact ⟨v, new.source, new, ⟨header, hheader, hversion⟩, hexchanged.read hl, hload,
      hnewVersion⟩

/-- After agreement the manifest states the version of the header as a string, or else a number
while the version was found at another place of the text. -/
theorem stated_of_agrees {mode : Mode} {wantsDiff : Bool} {o : Outcome}
    (h : d.run s mode wantsDiff = (.ok o, d')) (ho : o.agrees = true) :
    ∃ v source x, HeaderStates s d v ∧ d'.read s.manifestPath = .ok source ∧
      Value.ofText source = .ok x ∧
      (stated x = .ok (.string v.dotted) ↔ ∀ n, stated x ≠ .ok (.number n)) ∧
      ∀ n, stated x = .ok (.number n) →
        ∃ l, Located.find source = .ok l ∧ l.value = v.dotted := by
  obtain ⟨v, source, m, hheader, hsource, hm, hv⟩ := load_of_agrees h ho
  obtain ⟨x, found, hx, hfound, rfl⟩ := Manifest.loadWith_eq_ok hm
  refine ⟨v, source, x, hheader, hsource, hx, ?_, ?_⟩
  · rw [hfound]
    cases found with
    | string t =>
      dsimp only [Manifest.versionOf] at hv
      simp [hv]
    | number n => simp
  · intro n hn
    obtain rfl := Except.ok.inj (hfound.symm.trans hn)
    dsimp only [Manifest.versionOf] at hv
    split at hv
    · next l hl => exact ⟨l, hl, hv⟩
    · exact absurd hv (n.text_ne_dotted v)

theorem run_of_result {mode : Mode} {wantsDiff : Bool} {o : Outcome}
    (h : (d.run s mode wantsDiff).1.toOption = some o) :
    d.run s mode wantsDiff = (.ok o, (d.run s mode wantsDiff).2) :=
  Prod.ext (eq_ok_of_toOption h) rfl

theorem stated_of_agrees_updated :
    let s : Settings := ⟨"h".toList, "m".toList, "V".toList⟩
    let header := "#define V_MAJOR 1\n#define V_MINOR 3\n#define V_PATCH 0\n"
    let d : Disk := ⟨[([['h']], .file 0o644 header.toUTF8),
      ([['m']], .file 0o644 "context:\n  version: \"1.2.0\"\n".toUTF8)], []⟩
    ∃ o d', d.run s .sync false = (.ok o, d') ∧ o.agrees = true ∧
      ∃ v source x, HeaderStates s d v ∧ d'.read s.manifestPath = .ok source ∧
        Value.ofText source = .ok x ∧
        (stated x = .ok (.string v.dotted) ↔ ∀ n, stated x ≠ .ok (.number n)) ∧
        ∀ n, stated x = .ok (.number n) →
          ∃ l, Located.find source = .ok l ∧ l.value = v.dotted := by
  intro s header d
  have hresult : (d.run s .sync false).1.toOption =
      some (.updated "1.2.0".toList "1.3.0".toList none) := by decide +kernel
  have hrun := run_of_result hresult
  exact ⟨_, _, hrun, rfl, stated_of_agrees hrun rfl⟩

/-- A field inside a quoted text has the version of the header, while `context.version` is a
number. -/
theorem synced_with_number :
    let s : Settings := ⟨"h".toList, "m".toList, "V".toList⟩
    let header := "#define V_MAJOR 1\n#define V_MINOR 3\n#define V_PATCH 0\n"
    let manifest := "context:\n  a: \"x\n  version: 1.3.0\n  y\"\n  version: 1.2\n"
    let d : Disk := ⟨[([['h']], .file 0o644 header.toUTF8),
      ([['m']], .file 0o644 manifest.toUTF8)], []⟩
    (d.run s .check false).1.toOption = some (.synced "1.3.0".toList) ∧
      (do
        let source ← ((d.run s .check false).2.read s.manifestPath).toOption
        let x ← (Value.ofText source).toOption
        (stated x).toOption) ≠ some (.string "1.3.0".toList) := by
  decide +kernel

end Disk
end VersionDrift

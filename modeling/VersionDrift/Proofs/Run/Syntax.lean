import VersionDrift.Proofs.Manifest.Meaning
import VersionDrift.Proofs.Run.Convergence

/-!
# Rewrites that are no YAML

A rewritten manifest is read again before it is stored, and where that fails, the
manifest is reported as invalid although it loads. In place of a scalar of the document
the version keeps the syntax; then only a key can come to be repeated, and that takes a
key that is no scalar or spells the old version.
-/

set_option autoImplicit false

namespace VersionDrift

namespace Manifest

open Yaml

/-- What it takes for a manifest with another version `v` to be no YAML, for the reason `e`. -/
def Breaks (m : Manifest) (v : Triple) (e : Yaml.Error) : Prop :=
  m.version ≠ v.dotted ∧ ∃ l, Located.find m.source = .ok l ∧ l.value = m.version ∧
    (l.IsScalar → e = .repeatedKey ∧
      ∃ doc, Document.ofText m.source = .ok doc ∧ ¬ doc.KeysAvoid m.version)

theorem loadWith_eq_notYaml {read : Reader} {source : Text} {e : Yaml.Error}
    (h : loadWith read source = .error (.notYaml e)) : read source = .error e := by
  unfold loadWith at h
  split at h
  · next e' he' =>
    cases h
    exact he'
  · split at h <;> cases h

theorem rewriteWith_eq_notYaml {read : Reader} {v : Text} {m : Manifest} {e : Yaml.Error}
    (h : m.rewriteWith read v = .error (.notYaml e)) : ∃ l, Located.find m.source = .ok l ∧
      l.value = m.version ∧ read (l.before ++ l.style.encode v ++ l.after) = .error e := by
  unfold rewriteWith at h
  split at h
  · cases h
  · next l hl =>
    obtain ⟨hfind, hvalue⟩ := locate_eq_ok hl
    split at h
    · next e' he' =>
      cases h
      exact ⟨l, hfind, hvalue, loadWith_eq_notYaml he'⟩
    · split at h <;> cases h

theorem breaks_of_rewrite {source : Text} {v : Triple} {m : Manifest} {e : Yaml.Error}
    (hload : load source = .ok m) (h : m.rewrite v.dotted = .error (.notYaml e)) :
    m.Breaks v e := by
  obtain ⟨x, s, hx, hs, rfl⟩ := loadWith_eq_ok hload
  obtain ⟨l, hfind, hvalue, hread⟩ := rewriteWith_eq_notYaml h
  have hne : versionOf source s ≠ v.dotted := by
    intro hv
    rw [Located.replaced_self hfind (hvalue.trans hv), hx] at hread
    cases hread
  refine ⟨hne, l, hfind, hvalue, fun hscalar => ?_⟩
  obtain ⟨doc, hdoc, hdocValue⟩ := ofText_eq_ok hx
  obtain ⟨doc', hdoc', hedited⟩ :=
    Located.document_replaced hfind hscalar (hvalue.trans_ne hne) hdoc
    (isScalar_root hdocValue hs)
  have hvalue' : doc'.value = .error e := by
    unfold Value.ofText at hread
    rwa [hdoc'] at hread
  rcases Document.value_edited (onlyString_dotted v) (hvalue.trans_ne hne) hedited hdocValue with
    ⟨x', hx', -⟩ | ⟨hrepeated, hkeys⟩
  · cases hvalue'.symm.trans hx'
  · cases hvalue'.symm.trans hrepeated
    exact ⟨rfl, doc, hdoc, hvalue ▸ hkeys⟩

end Manifest

namespace Plan

theorem make_eq_error {r : Request} {header : Text} {m : Manifest} {f : ManifestFault}
    (h : make r header m = .error f) : m.rewrite header = .error f := by
  unfold make at h
  split at h
  · cases h
  · split at h
    · dsimp only at h
      split at h
      · exact map_eq_error h
      · cases h
    · exact map_eq_error h

end Plan

namespace Disk

variable {d : Disk} {s : Settings} {mode : Mode} {wantsDiff : Bool}

/-- A decision reports invalid YAML only of the manifest, of the text that is read or of the text
that is rewritten. -/
theorem decision_eq_notYaml {path : Text} {e : Yaml.Error}
    (h : d.decision s mode wantsDiff = .error (.notYaml path e)) :
    path = s.manifestPath ∧ ∃ source, d.read path = .ok source ∧
      (Manifest.load source = .error (.notYaml e) ∨ ∃ m v, Manifest.load source = .ok m ∧
        HeaderStates s d v ∧ m.rewrite v.dotted = .error (.notYaml e)) := by
  have hread {kind : FileKind} {p : Text} (h : d.readFile kind p = .error (.notYaml path e)) :
      False := by
    obtain ⟨e', -, he'⟩ := mapError_eq_error h
    cases e' <;> cases he'
  have hmanifest {f : ManifestFault} (h : Failure.ofManifest s.manifestPath f = .notYaml path e) :
      path = s.manifestPath ∧ f = .notYaml e := by
    cases f <;> cases h
    exact ⟨rfl, rfl⟩
  rcases bind_eq_error h with h | ⟨header, hheader, h⟩
  · exact (hread h).elim
  rcases bind_eq_error h with h | ⟨v, hv, h⟩
  · obtain ⟨e', -, he'⟩ := mapError_eq_error h
    cases he'
  rcases bind_eq_error h with h | ⟨source, hsource, h⟩
  · exact (hread h).elim
  have hsource := mapError_eq_ok hsource
  rcases bind_eq_error h with h | ⟨m, hm, h⟩
  · obtain ⟨f, hf, hpath⟩ := mapError_eq_error h
    obtain ⟨rfl, rfl⟩ := hmanifest hpath
    exact ⟨rfl, source, hsource, .inl hf⟩
  · obtain ⟨f, hf, hpath⟩ := mapError_eq_error h
    obtain ⟨rfl, rfl⟩ := hmanifest hpath
    exact ⟨rfl, source, hsource, .inr ⟨m, v, mapError_eq_ok hm,
      ⟨header, mapError_eq_ok hheader, mapError_eq_ok hv⟩, Plan.make_eq_error hf⟩⟩

theorem run_eq_notYaml {path : Text} {e : Yaml.Error}
    (h : (d.run s mode wantsDiff).1 = .error (.notYaml path e)) :
    d.decision s mode wantsDiff = .error (.notYaml path e) := by
  rw [run_eq] at h
  split at h
  · next f hf =>
    cases h
    exact hf
  · unfold carryOut at h
    split at h
    · cases h
    · split at h <;> cases h

/-- A manifest that loads is reported as invalid YAML only where the new version breaks it, in
memory and by a run. -/
theorem breaks_of_notYaml (d : Disk) (s : Settings) (mode : Mode) (wantsDiff : Bool)
    (e : Yaml.Error) :
    (∀ (source : Text) (m : Manifest) (v : Triple), Manifest.load source = .ok m →
      m.rewrite v.dotted = .error (.notYaml e) → m.Breaks v e) ∧
    ∀ path : Text, (d.run s mode wantsDiff).1 = .error (.notYaml path e) →
      path = s.manifestPath ∧ ∃ source, d.read path = .ok source ∧
        (Yaml.Value.ofText source = .error e ∨ ∃ m v, Manifest.load source = .ok m ∧
          HeaderStates s d v ∧ m.Breaks v e) := by
  refine ⟨fun source m v => Manifest.breaks_of_rewrite, fun path h => ?_⟩
  obtain ⟨hpath, source, hsource, hload | ⟨m, v, hload, hheader, hrewrite⟩⟩ :=
    decision_eq_notYaml (run_eq_notYaml h)
  · exact ⟨hpath, source, hsource, .inl (Manifest.loadWith_eq_notYaml hload)⟩
  · exact ⟨hpath, source, hsource, .inr ⟨m, v, hload, hheader,
      Manifest.breaks_of_rewrite hload hrewrite⟩⟩

set_option maxRecDepth 10000 in
theorem breaks_of_aliased_key :
    let source :=
      "context:\n  &a\n  version: 1.2\n? *a\n: 1\n? \x7bversion: \"1.3.0\"\x7d\n: 2\n"
    let m : Manifest := ⟨source.toList, "1.2".toList⟩
    let s : Settings := ⟨"h".toList, "m".toList, "V".toList⟩
    let header := "#define V_MAJOR 1\n#define V_MINOR 3\n#define V_PATCH 0\n"
    let d : Disk := ⟨[([['h']], .file 0o644 header.toUTF8),
      ([['m']], .file 0o644 source.toUTF8)], []⟩
    Manifest.load source.toList = .ok m ∧
      m.rewrite "1.3.0".toList = .error (.notYaml .repeatedKey) ∧ m.Breaks ⟨1, 3, 0⟩ .repeatedKey ∧
      (d.run s .sync false).1 = .error (.notYaml "m".toList .repeatedKey) ∧
      ∃ source, d.read "m".toList = .ok source ∧
        (Yaml.Value.ofText source = .error .repeatedKey ∨ ∃ m v, Manifest.load source = .ok m ∧
          HeaderStates s d v ∧ m.Breaks v .repeatedKey) := by
  intro source m s header d
  have hload : Manifest.load source.toList = .ok m := eq_ok_of_toOption (by decide +kernel)
  have hrewrite : m.rewrite "1.3.0".toList = .error (.notYaml .repeatedKey) :=
    eq_error_of_match (by decide +kernel)
  have hrun : (d.run s .sync false).1 = .error (.notYaml "m".toList .repeatedKey) :=
    eq_error_of_match (by decide +kernel)
  obtain ⟨hbreaks, hpath⟩ := breaks_of_notYaml d s .sync false .repeatedKey
  exact ⟨hload, hrewrite, hbreaks source.toList m ⟨1, 3, 0⟩ hload hrewrite, hrun,
    (hpath "m".toList hrun).2⟩

set_option maxRecDepth 10000 in
/-- The token of the version takes the bracket of a flow mapping with it. -/
theorem notYaml_of_flow_mapping :
    let source := "context:\n  \x7b\n  version: 1.2\x7d\n"
    let m : Manifest := ⟨source.toList, "1.2\x7d".toList⟩
    let s : Settings := ⟨"h".toList, "m".toList, "V".toList⟩
    let header := "#define V_MAJOR 1\n#define V_MINOR 3\n#define V_PATCH 0\n"
    let d : Disk := ⟨[([['h']], .file 0o644 header.toUTF8),
      ([['m']], .file 0o644 source.toUTF8)], []⟩
    Manifest.load source.toList = .ok m ∧
      m.rewrite "1.3.0".toList = .error (.notYaml .expectedFlowEntry) ∧
      (d.run s .sync false).1 = .error (.notYaml "m".toList .expectedFlowEntry) :=
  ⟨eq_ok_of_toOption (by decide +kernel), eq_error_of_match (by decide +kernel),
    eq_error_of_match (by decide +kernel)⟩

end Disk
end VersionDrift

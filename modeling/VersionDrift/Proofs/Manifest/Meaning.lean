import VersionDrift.Proofs.Yaml.Fields
import VersionDrift.Proofs.Manifest.Tokens

/-!
# What a rewritten manifest means

A rewrite is meant to change the version in the value of the document and nothing
else. It does when the token that is found is the scalar at `context.version` and no
alias leads to another node than before.
-/

set_option autoImplicit false

namespace VersionDrift.Manifest

open Yaml

/-- The value with the string `t` at `context.version`, and all else as it was. -/
def withVersion (t : Text) (x : Value) : Value :=
  x.change contextKey fun context => context.change versionKey fun _ => .string t

def Stated.value : Stated → Value
  | .string t => .string t
  | .number n => .number n

@[simp] theorem Stated.isLeaf_value (s : Stated) : s.value.isLeaf = true := by
  cases s <;> rfl

@[simp]
theorem Stated.value_eq_string {s : Stated} {t : Text} : s.value = .string t ↔ s = .string t := by
  cases s <;> simp [value]

theorem stated_eq_ok {x : Value} {s : Stated} (h : stated x = .ok s) : ∃ es cs,
    x.untagged = .mapping es ∧ Value.entry? contextKey es = some (.mapping cs) ∧
      Value.entry? versionKey cs = some s.value := by
  unfold stated at h
  split at h
  · cases h
  · next cs hcontext =>
    unfold Value.get? at hcontext
    split at hcontext
    · next es hes =>
      split at h
      · next t ht =>
        cases h
        exact ⟨es, cs, hes, hcontext, ht⟩
      · next n hn =>
        cases h
        exact ⟨es, cs, hes, hcontext, hn⟩
      · cases h
      · cases h
      · cases h
    · cases hcontext
  · cases h

theorem stated_of_entries {x : Value} {es cs : List (Value × Value)} {t : Text}
    (hes : x.untagged = .mapping es) (hcontext : Value.entry? contextKey es = some (.mapping cs))
    (hversion : Value.entry? versionKey cs = some (.string t)) :
    stated x = .ok (.string t) := by
  simp only [stated, Value.get?, hes, hcontext, hversion]

theorem stated_withVersion {x : Value} {s : Stated} (h : stated x = .ok s) (t : Text) :
    stated (withVersion t x) = .ok (.string t) := by
  obtain ⟨es, cs, hes, hcontext, hversion⟩ := stated_eq_ok h
  have hinner : Value.change versionKey (fun _ => .string t) (.mapping cs) =
      .mapping (Value.changeEntry versionKey (fun _ => .string t) cs) := rfl
  exact stated_of_entries (Value.untagged_change hes)
    (by rw [Value.entry?_changeEntry hcontext, hinner]) (Value.entry?_changeEntry hversion)

theorem withVersion_of_stated {x : Value} {t : Text} (h : stated x = .ok (.string t)) :
    withVersion t x = x := by
  obtain ⟨es, cs, hes, hcontext, hversion⟩ := stated_eq_ok h
  have hcs : Value.changeEntry versionKey (fun _ => .string t) cs = cs :=
    Value.changeEntry_self hversion rfl
  refine Value.change_self hes (Value.changeEntry_self hcontext ?_)
  rw [Value.change, hcs]

/-- A value that differs from another in `n` strings `new` is that value with the version `new`
exactly when it states the version and differs in nothing else. -/
theorem eq_withVersion_iff {new : Text} {n : Nat} {x y : Value} {s : Stated}
    {a : Anchors} {node : Node} (hmeans : node.Means a false x) (hs : stated x = .ok s)
    (hne : s ≠ .string new) (hcontextKey : contextKey ≠ new) (hversionKey : versionKey ≠ new)
    (h : Value.Edited new n x y) :
    y = withVersion new x ↔ n = 1 ∧ stated y = .ok (.string new) := by
  obtain ⟨es, cs, hes, hcontext, hversion⟩ := stated_eq_ok hs
  have hother : s.value ≠ .string new := fun h => hne (Stated.value_eq_string.mp h)
  constructor
  · rintro rfl
    have hinner : Value.change versionKey (fun _ => .string new) (.mapping cs) =
        .mapping (Value.changeEntry versionKey (fun _ => .string new) cs) := rfl
    refine ⟨?_, stated_withVersion hs new⟩
    have hversions := Value.countEntries_changeEntry (f := fun _ => .string new) new hversion
    have hcontexts := Value.countEntries_changeEntry
      (f := fun context => context.change versionKey fun _ => .string new) new hcontext
    have hcount := h.count
    rw [Value.count_of_untagged new hes, withVersion,
      Value.count_of_untagged new (Value.untagged_change hes)] at hcount
    simp only [hinner, Value.count] at hcontexts
    rw [Value.count_of_isLeaf s.isLeaf_value hother, Value.count, if_pos rfl] at hversions
    omega
  · rintro ⟨rfl, hy⟩
    obtain ⟨fs, hfs, hedited, hchange⟩ := h.untagged hes
    obtain ⟨fs', ds, hfs', hcontext', hversion'⟩ := stated_eq_ok hy
    obtain rfl := Value.mapping.inj (hfs.symm.trans hfs')
    obtain ⟨_, _, -, hdistinct, hinside⟩ := Resolution.mapping_of_means hmeans hes
    have hne : Value.mapping ds ≠ .mapping cs := by
      intro h
      rw [Value.mapping.inj h, hversion] at hversion'
      exact hother (Option.some.inj hversion')
    obtain ⟨-, hcs, hfsChange⟩ := Value.Edited.changeEntry hcontextKey hdistinct hedited
      (Nat.le_refl 1) hcontext hcontext' hne
    cases hcs with
    | mapping entries =>
      obtain ⟨n, -, hmeans'⟩ := Node.entryNode?_of_means hinside hcontext
      obtain ⟨_, _, -, hdistinct', -⟩ := Resolution.mapping_of_means hmeans' rfl
      obtain ⟨-, -, hdsChange⟩ := Value.Edited.changeEntry hversionKey hdistinct' entries
        (Nat.le_refl 1) hversion hversion' (Ne.symm hother)
      refine hchange contextKey _ ?_
      rw [hfsChange]
      apply Value.changeEntry_congr hcontext
      rw [hdsChange]
      rfl

theorem ofText_eq_ok {t : Text} {x : Value} (h : Value.ofText t = .ok x) :
    ∃ doc, Document.ofText t = .ok doc ∧ doc.value = .ok x :=
  bind_eq_ok h

theorem isScalar_root {doc : Document} {x : Value} {s : Stated} (hx : doc.value = .ok x)
    (hs : stated x = .ok s) : doc.root.isScalar = false := by
  obtain ⟨es, cs, hes, -⟩ := stated_eq_ok hs
  obtain ⟨tag, ns, hfollowed, -⟩ :=
    Resolution.mapping_of_means (Document.means_of_value hx) hes
  cases hroot : doc.root with
  | scalar tag text style =>
    rw [hroot] at hfollowed
    cases hfollowed
  | _ => rfl

theorem versionOf_ne {source t : Text} {s : Stated} (h : versionOf source s ≠ t) :
    s ≠ .string t := by
  rintro rfl
  exact h rfl

/-- Where the token that is found is a scalar of the document, or spells the version already, a
rewrite changes the version and nothing else exactly when the new text states the version as a
string and, unless it is the old one, every alias leads to the same node as before. -/
theorem value_of_rewrite {source : Text} {v : Triple} {m new : Manifest} {l : Located}
    (hload : load source = .ok m) (hrewrite : m.rewrite v.dotted = .ok new)
    (hfind : Located.find source = .ok l) (hscalar : m.version = v.dotted ∨ l.IsScalar) :
    ∃ doc doc' x x', Document.ofText source = .ok doc ∧ doc.value = .ok x ∧
      Document.ofText new.source = .ok doc' ∧ doc'.value = .ok x' ∧
      (x' = withVersion v.dotted x ↔ stated x' = .ok (.string v.dotted) ∧
        (m.version = v.dotted ∨ doc.Kept doc')) := by
  obtain ⟨x, s, hx, hs, rfl⟩ := loadWith_eq_ok hload
  obtain ⟨l', hfind', hvalue, hsource, hloadNew, -⟩ := rewriteWith_eq_ok hrewrite
  cases hfind.symm.trans hfind'
  obtain ⟨x', s', hx', hs', -⟩ := loadWith_eq_ok hloadNew
  obtain ⟨doc, hdoc, hdocValue⟩ := ofText_eq_ok hx
  obtain ⟨doc', hdoc', hdocValue'⟩ := ofText_eq_ok hx'
  refine ⟨doc, doc', x, x', hdoc, hdocValue, hdoc', hdocValue', ?_⟩
  by_cases hv : versionOf source s = v.dotted
  · rw [hsource, Located.replaced_self hfind (hvalue.trans hv)] at hx'
    cases hx.symm.trans hx'
    rw [and_iff_left (.inl hv)]
    constructor
    · intro h
      rw [h]
      exact stated_withVersion hs v.dotted
    · intro h
      exact (withVersion_of_stated h).symm
  · have hne : l.value ≠ v.dotted := by
      rw [hvalue]
      exact hv
    obtain ⟨doc'', hdoc'', hedited⟩ := Located.document_replaced hfind (hscalar.resolve_left hv) hne
      hdoc (isScalar_root hdocValue hs)
    rw [hsource] at hdoc'
    cases hdoc'.symm.trans hdoc''
    obtain ⟨e, hvalues, hkept⟩ := Document.values_edited (onlyString_dotted v) hne hedited hdocValue
      hdocValue'
    rw [eq_withVersion_iff (Document.means_of_value hdocValue) hs (versionOf_ne hv)
      v.contextKey_ne_dotted v.versionKey_ne_dotted hvalues, or_iff_right hv, ← hkept, and_comm]
    refine and_congr_right fun _ => ?_
    omega

set_option maxRecDepth 10000 in
theorem value_of_rewrite_quoted :
    let source := "context:\n  version: \"1.2\"\n".toList
    let new : Manifest := ⟨"context:\n  version: \"1.3.0\"\n".toList, "1.3.0".toList⟩
    let l : Located := ⟨"context:\n  version: ".toList, "\"1.2\"".toList, "\n".toList, .double,
      "1.2".toList⟩
    load source = .ok ⟨source, "1.2".toList⟩ ∧
      rewrite "1.3.0".toList ⟨source, "1.2".toList⟩ = .ok new ∧
      Located.find source = .ok l ∧ l.IsScalar ∧
      ∃ doc doc' x x', Document.ofText source = .ok doc ∧ doc.value = .ok x ∧
        Document.ofText new.source = .ok doc' ∧ doc'.value = .ok x' ∧
        (x' = withVersion "1.3.0".toList x ↔ stated x' = .ok (.string "1.3.0".toList) ∧
          ("1.2".toList = "1.3.0".toList ∨ doc.Kept doc')) := by
  intro source new l
  have hload : load source = .ok ⟨source, "1.2".toList⟩ := eq_ok_of_toOption (by decide +kernel)
  have hrewrite : rewrite "1.3.0".toList ⟨source, "1.2".toList⟩ = .ok new :=
    eq_ok_of_toOption (by decide +kernel)
  have hfind : Located.find source = .ok l := eq_ok_of_toOption (by decide +kernel)
  have hline : ∀ c ∈ l.token, breaksLine c = false := by simp [l, breaksLine, isBreak]
  have hgap : ∀ c ∈ " ".toList, Text.isGap c = true := by simp [Text.isGap]
  have hscalar : l.IsScalar :=
    ⟨hline, "context:\n  version:".toList, " ".toList, _, _, rfl, by decide, hgap,
      .next (.next (.next (.next .start rfl) rfl) rfl) rfl, rfl, rfl, rfl⟩
  exact ⟨hload, hrewrite, hfind, hscalar,
    value_of_rewrite (v := ⟨1, 3, 0⟩) hload hrewrite hfind (.inr hscalar)⟩

/-- The field inside the quoted text is rewritten, and `context.version` stays a number. -/
theorem value_of_rewrite_inside_quotes :
    let source := "context:\n  a: \"x\n  version: 1.2\n  y\"\n  version: 1.2\n".toList
    let new : Manifest :=
      ⟨"context:\n  a: \"x\n  version: 1.3.0\n  y\"\n  version: 1.2\n".toList, "1.3.0".toList⟩
    load source = .ok ⟨source, "1.2".toList⟩ ∧
      rewrite "1.3.0".toList ⟨source, "1.2".toList⟩ = .ok new ∧
      ∃ x x', Value.ofText source = .ok x ∧ Value.ofText new.source = .ok x' ∧
        x' ≠ withVersion "1.3.0".toList x := by
  intro source new
  have hload : load source = .ok ⟨source, "1.2".toList⟩ := eq_ok_of_toOption (by decide +kernel)
  have hrewrite : rewrite "1.3.0".toList ⟨source, "1.2".toList⟩ = .ok new :=
    eq_ok_of_toOption (by decide +kernel)
  obtain ⟨x, s, hx, hs, -⟩ := loadWith_eq_ok hload
  obtain ⟨l, -, -, -, hloadNew, -⟩ := rewriteWith_eq_ok hrewrite
  obtain ⟨x', s', hx', hs', -⟩ := loadWith_eq_ok hloadNew
  refine ⟨hload, hrewrite, x, x', hx, hx', ?_⟩
  rintro rfl
  have hstated := stated_withVersion hs "1.3.0".toList
  have hnumber : (Value.ofText new.source).toOption.bind (fun x => (stated x).toOption) ≠
      some (.string "1.3.0".toList) := by
    decide +kernel
  rw [hx'] at hnumber
  apply hnumber
  simp only [Except.toOption, Option.bind, hstated]

end VersionDrift.Manifest

import VersionDrift.Proofs.Manifest.Meaning
import VersionDrift.Proofs.Yaml.Number

/-!
# Versions that are numbers

A number is meant to stand for its source text, which the document has at the node that
the number is read from. But the text is taken from the token that is found line by line.
The two are the same when that token is a scalar of the document and a rewrite of it
makes a string of the number.
-/

set_option autoImplicit false

namespace VersionDrift.Manifest

open Yaml

def versionNode? (doc : Document) (x : Value) : Option Node := do
  let y ← Node.at? doc.anchors [contextKey, versionKey] doc.root x
  let (_, z) ← y.followed doc.anchors false
  return z

variable {doc doc' : Document} {x x' c : Value} {s : Stated} {n : Number} {t w : Text}

theorem get_of_stated (h : stated x = .ok s) :
    ∃ c, x.get? contextKey = some c ∧ c.get? versionKey = some s.value := by
  obtain ⟨es, cs, hes, hcontext, hversion⟩ := stated_eq_ok h
  exact ⟨.mapping cs, by rw [Value.get?, hes]; exact hcontext, hversion⟩

theorem versionNode?_of_fields {y z : Node} {tagRead : Bool} {u : Node}
    (hc : x.get? contextKey = some c) (hversion : c.get? versionKey = some s.value)
    (hy : doc.root.field? doc.anchors contextKey x = some y)
    (hz : y.field? doc.anchors versionKey c = some z)
    (hu : z.followed doc.anchors false = some (tagRead, u)) : versionNode? doc x = some u := by
  simp only [versionNode?, Node.at?, hy, hc, hz, hversion, hu, Option.bind_eq_bind,
    Option.bind_some, Option.pure_def]

theorem versionNode?_eq_scalar (hx : doc.value = .ok x) (hn : stated x = .ok (.number n)) :
    ∃ tag w style, versionNode? doc x = some (.scalar tag w style) ∧
      Resolution.scalar false tag w style = .ok (.number n) := by
  obtain ⟨c, hc, hversion⟩ := get_of_stated hn
  obtain ⟨y, hy, hmeans⟩ := Node.field?_of_means (Document.means_of_value hx) hc
  obtain ⟨z, hz, hmeans⟩ := Node.field?_of_means hmeans hversion
  obtain ⟨tagRead, tag, w, style, hfollowed, hscalar⟩ := Resolution.scalar_of_means hmeans rfl
  obtain rfl := Node.followed_of_false hfollowed
  exact ⟨tag, w, style, versionNode?_of_fields hc hversion hy hz hfollowed, hscalar⟩

theorem text_of_edited {old new : Text} {i : Nat} {tag : Option Text} {style : ScalarStyle}
    (hnew : Resolution.OnlyString new) (hcontext : contextKey ≠ new) (hversion : versionKey ≠ new)
    (h : Document.Edited old new i doc doc') (hx : doc.value = .ok x) (hx' : doc'.value = .ok x')
    (hn : stated x = .ok (.number n)) (hs : stated x' = .ok (.string t))
    (hnode : versionNode? doc x = some (.scalar tag w style)) : w = old := by
  obtain ⟨c, hc, hc'⟩ := get_of_stated hn
  obtain ⟨d, hd, hd'⟩ := get_of_stated hs
  obtain ⟨y, y', j, hy, hyEdited, hyMeans, hyMeans'⟩ := h.root.field? hnew h.anchors
    (Document.means_of_value hx) (Document.means_of_value hx') hc hd hcontext
  obtain ⟨z, z', k, hz, hzEdited, hzMeans, hzMeans'⟩ := hyEdited.field? hnew h.anchors hyMeans
    hyMeans' hc' hd' hversion
  obtain ⟨tagRead, tag₁, w₁, style₁, hfollowed, hscalar⟩ := Resolution.scalar_of_means hzMeans rfl
  obtain ⟨tagRead', tag₂, w₂, style₂, hfollowed', hscalar'⟩ :=
    Resolution.scalar_of_means hzMeans' rfl
  cases hnode.symm.trans (versionNode?_of_fields hc hc' hy hz hfollowed)
  obtain ⟨u, m, hu, hedited⟩ := hzEdited.followed h.anchors hfollowed
  cases hu.symm.trans hfollowed'
  cases hedited with
  | kept => cases hscalar.symm.trans hscalar'
  | scalar => rfl

/-- The source text of the number at `context.version`: the text of the scalar that the number is
read from, which is a token of the document and, unless it is in quotes or a block, stands in the
source as it is. -/
def NumberText (source : Text) (x : Value) (n : Number) (w : Text) : Prop :=
  ∃ doc ts tag style, Document.ofText source = .ok doc ∧ Token.ofText source = .ok ts ∧
    versionNode? doc x = some (.scalar tag w style) ∧
    Resolution.scalar false tag w style = .ok (.number n) ∧ .scalar w style ∈ ts ∧
    (style = .plain → w <:+: source)

theorem from_versionNode? {ts : List Token} {z : Node} (h : doc.From ts)
    (hz : versionNode? doc x = some z) : z.From ts := by
  obtain ⟨y, hy, hz⟩ := Option.bind_eq_some_iff.mp hz
  obtain ⟨⟨tagRead, u⟩, hu, hz⟩ := Option.bind_eq_some_iff.mp hz
  cases hz
  exact (h.root.at? h.nodes hy).followed h.nodes hu

theorem exists_numberText {source : Text} (hx : Value.ofText source = .ok x)
    (hn : stated x = .ok (.number n)) : ∃ w, NumberText source x n w := by
  obtain ⟨doc, hdoc, hvalue⟩ := ofText_eq_ok hx
  obtain ⟨ts, hts, htree⟩ := bind_eq_ok hdoc
  obtain ⟨tag, w, style, hnode, hscalar⟩ := versionNode?_eq_scalar hvalue hn
  have hmem : .scalar w style ∈ ts := by
    cases from_versionNode? (Document.ofTokens_sourced htree).1 hnode with
    | token tag mem => exact mem
    | empty => exact absurd rfl (Resolution.ne_nil_of_scalar hscalar)
  refine ⟨w, doc, ts, tag, style, hdoc, hts, hnode, hscalar, hmem, ?_⟩
  rintro rfl
  exact Token.infix_of_ofText hts hmem (Resolution.isWord_of_scalar hscalar)

def numberText? (source : Text) : Option (Number × Text) := do
  let doc ← (Document.ofText source).toOption
  let x ← doc.value.toOption
  match (stated x).toOption, versionNode? doc x with
  | some (.number n), some (.scalar _ w _) => some (n, w)
  | _, _ => none

theorem numberText_of_eq_some {source : Text} (h : numberText? source = some (n, w)) :
    ∃ x, Value.ofText source = .ok x ∧ stated x = .ok (.number n) ∧ NumberText source x n w := by
  obtain ⟨doc, hdoc, h⟩ := Option.bind_eq_some_iff.mp h
  obtain ⟨x, hx, h⟩ := Option.bind_eq_some_iff.mp h
  have hdoc := eq_ok_of_toOption hdoc
  have hx : Value.ofText source = .ok x := by
    rw [Value.ofText, hdoc]
    exact eq_ok_of_toOption hx
  split at h
  · next n' tag w' style hstated hnode =>
    cases h
    have hn := eq_ok_of_toOption hstated
    obtain ⟨w', doc', ts, tag', style', hdoc', hts, hnode', hrest⟩ := exists_numberText hx hn
    cases hdoc.symm.trans hdoc'
    cases hnode.symm.trans hnode'
    exact ⟨x, hx, hn, doc, ts, tag, style, hdoc, hts, hnode, hrest⟩
  · cases h

/-- A version that is a number has a source text, and it is read as that text exactly when the token
that is found, or without one the number as it is printed, has the text. That is so where the token
is a scalar of the document and a rewrite of it makes the version a string. -/
theorem version_of_number {source : Text} {m : Manifest} (hload : load source = .ok m)
    (hx : Value.ofText source = .ok x) (hn : stated x = .ok (.number n)) :
    (∃ w, NumberText source x n w) ∧ ∀ w, NumberText source x n w →
      (m.version = w ↔ match Located.find source with
        | .ok l => l.value = w
        | .error _ => n.text = w) ∧
      ∀ (l : Located) (v : Triple) (new : Manifest) (x' : Value), Located.find source = .ok l →
        l.IsScalar → m.rewrite v.dotted = .ok new → Value.ofText new.source = .ok x' →
        stated x' = .ok (.string v.dotted) → m.version = w := by
  obtain ⟨y, s, hy, hs, rfl⟩ := loadWith_eq_ok hload
  cases hx.symm.trans hy
  cases hn.symm.trans hs
  refine ⟨exists_numberText hx hn, ?_⟩
  rintro w ⟨doc, ts, tag, style, hdoc, hts, hnode, hscalar, hmem, hinfix⟩
  constructor
  · unfold versionOf
    cases Located.find source <;> rfl
  · intro l v new x' hfind hl hrewrite hx' hs'
    obtain ⟨l', hfind', hvalue, hsource, -, -⟩ := rewriteWith_eq_ok hrewrite
    cases hfind.symm.trans hfind'
    rw [hsource] at hx'
    have hne : l.value ≠ v.dotted := by
      intro hv
      rw [Located.replaced_self hfind hv, hx] at hx'
      cases hx'
      cases hn.symm.trans hs'
    obtain ⟨doc₀, hdoc₀, hdocValue⟩ := ofText_eq_ok hx
    cases hdoc.symm.trans hdoc₀
    obtain ⟨doc', hdoc', hdocValue'⟩ := ofText_eq_ok hx'
    obtain ⟨doc₁, hdoc₁, hedited⟩ := Located.document_replaced hfind hl hne hdoc
      (isScalar_root hdocValue hn)
    cases hdoc'.symm.trans hdoc₁
    rw [← hvalue]
    exact (text_of_edited (onlyString_dotted v) v.contextKey_ne_dotted v.versionKey_ne_dotted
      hedited hdocValue hdocValue' hn hs' hnode).symm

set_option maxRecDepth 10000 in
theorem version_of_number_commented :
    let source := "context:\r\n  version: 1.20 # x\r\n".toList
    let new : Manifest := ⟨"context:\r\n  version: 1.3.0 # x\r\n".toList, "1.3.0".toList⟩
    let l : Located := ⟨"context:\r\n  version: ".toList, "1.20".toList, " # x\r\n".toList, .plain,
      "1.20".toList⟩
    load source = .ok ⟨source, "1.20".toList⟩ ∧ Located.find source = .ok l ∧ l.IsScalar ∧
      rewrite "1.3.0".toList ⟨source, "1.20".toList⟩ = .ok new ∧
      ∃ x x' n, Value.ofText source = .ok x ∧ stated x = .ok (.number n) ∧
        Value.ofText new.source = .ok x' ∧ stated x' = .ok (.string "1.3.0".toList) ∧
        (∃ w, NumberText source x n w) ∧ ∀ w, NumberText source x n w → "1.20".toList = w := by
  intro source new l
  have hload : load source = .ok ⟨source, "1.20".toList⟩ := eq_ok_of_toOption (by decide +kernel)
  have hrewrite : rewrite "1.3.0".toList ⟨source, "1.20".toList⟩ = .ok new :=
    eq_ok_of_toOption (by decide +kernel)
  have hfind : Located.find source = .ok l := eq_ok_of_toOption (by decide +kernel)
  have hscalar : l.IsScalar :=
    Located.isScalar_of_after "context:\r\n  version:".toList [' '] 4 (by decide +kernel)
  have hnumber : numberText? source =
      some (.float (.finite false 5404319552844595 (-52)), "1.20".toList) := by
    decide +kernel
  obtain ⟨x, hx, hn, -⟩ := numberText_of_eq_some hnumber
  obtain ⟨-, -, -, -, hloadNew, -⟩ := rewriteWith_eq_ok hrewrite
  obtain ⟨x', s', hx', hs', -⟩ := loadWith_eq_ok hloadNew
  have hstated : (Value.ofText new.source).toOption.bind (fun x => (stated x).toOption) =
      some (.string "1.3.0".toList) := by
    decide +kernel
  rw [hx'] at hstated
  have hstated := eq_ok_of_toOption hstated
  obtain ⟨hexists, hnumber⟩ := version_of_number hload hx hn
  exact ⟨hload, hfind, hscalar, hrewrite, x, x', _, hx, hn, hx', hstated, hexists, fun w hw =>
    (hnumber w hw).2 l ⟨1, 3, 0⟩ new x' hfind hscalar hrewrite hx' hstated⟩

set_option maxRecDepth 10000 in
/-- The line inside the quoted text is taken for the field. -/
theorem version_of_number_inside_quotes :
    let source := "context:\n  a: \"x\n  version: 1.3.0\n  y\"\n  version: 1.20\n".toList
    load source = .ok ⟨source, "1.3.0".toList⟩ ∧
      ∃ x n, Value.ofText source = .ok x ∧ stated x = .ok (.number n) ∧
        NumberText source x n "1.20".toList := by
  intro source
  have hload : load source = .ok ⟨source, "1.3.0".toList⟩ := eq_ok_of_toOption (by decide +kernel)
  have hnumber : numberText? source =
      some (.float (.finite false 5404319552844595 (-52)), "1.20".toList) := by
    decide +kernel
  obtain ⟨x, hx, hn, htext⟩ := numberText_of_eq_some hnumber
  exact ⟨hload, x, _, hx, hn, htext⟩

end VersionDrift.Manifest

import VersionDrift.Proofs.Except
import VersionDrift.Proofs.Yaml.Entered
import VersionDrift.Proofs.Yaml.Parts

/-!
# Documents with a text left out

A scalar in a field of a mapping in a field of the root is left out of the document,
and any text may be put in its place.
-/

set_option autoImplicit false

namespace VersionDrift.Yaml

namespace Document

/-- A document with a text left out: the one of the scalar in the field `inner` of the mapping in
the field `outer` of its root. -/
structure Template where
  tag : Option Text
  before : Option Anchors
  outer : Text
  inner : Text
  style : ScalarStyle
  above : List (Node × Node)
  below : List (Node × Node)
  fieldsAbove : List (Node × Node)
  fieldsBelow : List (Node × Node)
  anchors : Anchors
  size : Nat

namespace Template

variable (p : Template) (t : Text)

def fields : List (Node × Node) :=
  p.fieldsAbove ++ (.scalar none p.inner .plain, .scalar none t p.style) :: p.fieldsBelow

def entries : List (Node × Node) :=
  p.above ++ (.scalar none p.outer .plain, .mapping none (p.fields t)) :: p.below

def root : Node := .mapping p.tag (p.entries t)

def filledAnchors : Anchors :=
  p.before.elim p.anchors fun before => before.bind (p.root t) p.anchors

def fill : Document := ⟨p.root t, p.filledAnchors t, p.size⟩

end Template

open Yaml.Composition

theorem exists_fill_of_closing {props : Option Text × Option Text} {before : Anchors} {d : Document}
    {above below fieldsAbove fieldsBelow : List (Node × Node)} {outer inner w : Text}
    {style : ScalarStyle} {c : Composition}
    (h : closing props before (above ++ (.scalar none outer .plain, .mapping none (fieldsAbove ++
      (.scalar none inner .plain, .scalar none w style) :: fieldsBelow)) :: below, c) = .ok d) :
    ∃ p : Template, p.outer = outer ∧ p.inner = inner ∧ p.style = style ∧
      ∀ t, closing props before (above ++ (.scalar none outer .plain, .mapping none (fieldsAbove ++
        (.scalar none inner .plain, .scalar none t style) :: fieldsBelow)) :: below, c) =
          .ok (p.fill t) := by
  unfold closing at h
  dsimp only at h
  split at h
  · next hends =>
    refine ⟨⟨props.2, if props.1.isSome then some before else none, outer, inner, style, above,
      below, fieldsAbove, fieldsBelow, c.anchors, c.size⟩, rfl, rfl, rfl, fun t => ?_⟩
    unfold closing
    dsimp only
    rw [if_pos hends]
    obtain ⟨anchor, tag⟩ := props
    cases anchor <;> rfl
  · cases h

end Document

open Document in
/-- Where the reading of a document comes to a scalar in such a place, any other text takes the
place of that scalar. -/
theorem Composition.Enters.exists_template {ts later : List Token} {outer inner w : Text} {n : Nat}
    {c : Composition} {style : ScalarStyle} {d : Document} (h : Enters ts [outer] n c)
    (hc : c.tokens = .key :: .scalar inner .plain :: .value :: .scalar w style :: later)
    (hd : ofTokens ts = .ok d) : ∃ V, ∃ p : Template, p.outer = outer ∧ p.inner = inner ∧
      p.style = style ∧ ts = V ++ .scalar w style :: later ∧ d = p.fill w ∧
      (∀ t, ofTokens (V ++ .scalar t style :: later) = .ok (p.fill t)) ∧
      ∃ u us, later = u :: us ∧ (u = .key ∨ u = .blockEnd) := by
  obtain ⟨V, close, rfl, hclose, heq⟩ := h.ofTokens_eq (W := [.key, .scalar inner .plain]) hc
  obtain ⟨props, before, above, fieldsAbove, m, rfl⟩ := hclose.field_eq
  obtain ⟨k, rfl⟩ : ∃ k, n = k + 3 := by
    have hd' := hd
    rw [heq _ rfl] at hd'
    obtain ⟨q, hq, -⟩ := bind_eq_ok hd'
    exact exists_add_three rfl hq
  have hread (t : Text) : ofTokens (V ++ .value :: .scalar t style :: later) =
      (blockEntries (k + 2)).run { c with tokens := later, size := c.size + 2 } >>= fun q =>
        (blockEntries m).run q.2 >>= fun r => closing props before (above ++
          (.scalar none outer .plain, .mapping none (fieldsAbove ++
            (.scalar none inner .plain, .scalar none t style) :: q.1)) :: r.1, r.2) := by
    rw [heq (.scalar t style :: later) rfl, blockEntries_of_scalar rfl, StateT.run_bind, bind_assoc]
    rfl
  rw [hread] at hd
  obtain ⟨q, hq, hd⟩ := bind_eq_ok hd
  obtain ⟨r, hr, hd⟩ := bind_eq_ok hd
  obtain ⟨p, houter, hinner, hstyle, hfill⟩ := exists_fill_of_closing hd
  rw [hfill] at hd
  refine ⟨V ++ [.value], p, houter, hinner, hstyle, by simp, (Except.ok.inj hd).symm, fun t => ?_,
    exists_head_of_blockEntries hq⟩
  rw [List.append_assoc, List.singleton_append, hread, hq, ← hfill]
  change ((blockEntries m).run q.2 >>= _) = _
  rw [hr]
  rfl

end VersionDrift.Yaml

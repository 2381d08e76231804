import Mathlib.Data.List.Forall2
import VersionDrift.Proofs.Yaml.Valued

/-!
# Nodes of the parts of a value

What a value is made of stands in the document: a mapping is read from a mapping node
with all its entries, and a value without parts from a scalar, unless an alias leads
there.
-/

set_option autoImplicit false

namespace VersionDrift.Yaml

namespace Value

def DistinctKeys (es : List (Value × Value)) : Prop :=
  es.Pairwise fun p q => p.1.same q.1 = false

theorem untagged_of_isLeaf {x : Value} (h : x.isLeaf = true) : x.untagged = x := by
  cases x with
  | tagged tag x => cases h
  | _ => rfl

end Value

/-- The node itself or what it is an alias of, and whether its tag is read already. -/
def Node.followed (a : Anchors) (tagRead : Bool) : Node → Option (Bool × Node)
  | .alias k => (a.node? k).map (false, ·)
  | x => some (tagRead, x)

/-- The node is read as the value, at some depth and with some aliases left. -/
def Node.Means (a : Anchors) (tagRead : Bool) (x : Node) (v : Value) : Prop :=
  ∃ depth s r, (Resolution.value a depth tagRead x).run s = .ok (v, r)

/-- The entries are read from these nodes, in their order. -/
def Node.EntriesMean (a : Anchors) (tagRead : Bool) (ns : List (Node × Node))
    (es : List (Value × Value)) : Prop :=
  List.Forall₂ (fun n p => n.1.Means a tagRead p.1 ∧ n.2.Means a false p.2) ns es

namespace Node

variable {a b : Anchors} {old new : Text} {n : Nat} {x y z : Node} {tagRead tagRead' : Bool}

theorem followed_of_false (h : x.followed a false = some (tagRead, y)) : tagRead = false := by
  cases x with
  | «alias» k =>
    obtain ⟨z, -, heq⟩ := Option.map_eq_some_iff.mp h
    cases heq
    rfl
  | _ =>
    cases h
    rfl

theorem Edited.followed (h : Edited old new n x y) (hanchors : Anchors.Edited old new a b)
    (hx : x.followed a tagRead = some (tagRead', z)) :
    ∃ z' m, y.followed b tagRead = some (tagRead', z') ∧ Edited old new m z z' := by
  cases h with
  | «alias» k =>
    obtain ⟨u, hu, heq⟩ := Option.map_eq_some_iff.mp hx
    cases heq
    obtain ⟨u', m, hu', hm⟩ := hanchors.node? hu
    exact ⟨u', m, by rw [Node.followed, hu']; rfl, hm⟩
  | kept tag text style =>
    cases hx
    exact ⟨_, _, rfl, .kept tag text style⟩
  | scalar style =>
    cases hx
    exact ⟨_, _, rfl, .scalar style⟩
  | sequence tag items =>
    cases hx
    exact ⟨_, _, rfl, .sequence tag items⟩
  | mapping tag entries =>
    cases hx
    exact ⟨_, _, rfl, .mapping tag entries⟩

end Node

namespace Resolution

open Value Node

variable {a : Anchors} {x : Node} {v : Value} {es : List (Value × Value)} {tagRead : Bool}

theorem entries_eq_ok {key value : Node → Loading Value} {ns : List (Node × Node)}
    {done vs : List (Value × Value)} {s r : Nat} (hdone : DistinctKeys done.reverse)
    (h : (entries key value done ns).run s = .ok (vs, r)) : DistinctKeys vs ∧
      ∃ es, vs = done.reverse ++ es ∧
        List.Forall₂ (fun n p => (∃ q q', (key n.1).run q = .ok (p.1, q')) ∧
          ∃ q q', (value n.2).run q = .ok (p.2, q')) ns es := by
  induction ns generalizing done s with
  | nil =>
    cases h
    exact ⟨hdone, [], (List.append_nil _).symm, .nil⟩
  | cons n ns ih =>
    obtain ⟨k, x⟩ := n
    unfold entries at h
    obtain ⟨u, q, hu, h⟩ := run_bind_eq_ok h
    split at h
    · cases h
    · next hnew =>
      obtain ⟨v, q', hv, h⟩ := run_bind_eq_ok h
      have hdistinct : DistinctKeys ((u, v) :: done).reverse := by
        rw [List.reverse_cons]
        refine List.pairwise_append.mpr ⟨hdone, List.pairwise_singleton .., ?_⟩
        intro p hp p' hp'
        obtain rfl := List.mem_singleton.mp hp'
        simp only [List.any_eq_true, not_exists, not_and, Bool.not_eq_true] at hnew
        exact hnew p (List.mem_reverse.mp hp)
      obtain ⟨hvs, es, rfl, hread⟩ := ih hdistinct h
      refine ⟨hvs, (u, v) :: es, ?_, .cons ⟨⟨s, q, hu⟩, q, q', hv⟩ hread⟩
      rw [List.reverse_cons, List.append_assoc, List.singleton_append]

@[simp] theorem untagged_marked (mark : Option Text) (x : Value) :
    (marked mark x).untagged = x.untagged := by
  cases mark <;> rfl

/-- A value is the content of the node that its node leads to, whose parts mean what is read of
them. -/
theorem content_of_means (h : x.Means a tagRead v) : ∃ inner tagRead' y s r,
    x.followed a tagRead = some (tagRead', y) ∧
      (∀ read ∈ inner, ∀ tagRead x s v r, (read tagRead x).run s = .ok (v, r) →
        x.Means a tagRead v) ∧
      (contentWith inner tagRead' y).run s = .ok (v, r) := by
  obtain ⟨depth, s, r, h⟩ := h
  have hcontent (inner : Option (Bool → Node → Loading Value))
      (hinner : ∀ read ∈ inner, ∀ tagRead x s v r, (read tagRead x).run s = .ok (v, r) →
        x.Means a tagRead v) (h : (valueWith a inner tagRead x).run s = .ok (v, r)) :
      ∃ inner tagRead' y s r, x.followed a tagRead = some (tagRead', y) ∧
        (∀ read ∈ inner, ∀ tagRead x s v r, (read tagRead x).run s = .ok (v, r) →
          x.Means a tagRead v) ∧
        (contentWith inner tagRead' y).run s = .ok (v, r) := by
    obtain ⟨⟨tagRead', y⟩, q, hfollow, h⟩ := run_bind_eq_ok h
    refine ⟨inner, tagRead', y, q, r, ?_, hinner, h⟩
    cases x with
    | «alias» k =>
      obtain ⟨z, hz, heq, -⟩ := follow_alias_eq_ok.mp hfollow
      cases heq
      rw [followed, hz]
      rfl
    | _ =>
      cases hfollow
      rfl
  cases depth with
  | zero => exact hcontent none (by simp) h
  | succ depth =>
    refine hcontent (some (Resolution.value a depth)) ?_ h
    intro read hmem tagRead x s v r hx
    cases hmem
    exact ⟨depth, s, r, hx⟩

theorem untagged_scalar {tag : Option Text} {text : Text} {style : ScalarStyle}
    (h : scalar tagRead tag text style = .ok v) : v.untagged.isLeaf = true := by
  obtain ⟨mark, u, rfl, hleaf⟩ := scalar_eq_ok h
  rw [untagged_marked, untagged_of_isLeaf hleaf.1]
  exact hleaf.1

theorem scalar_of_content {inner : Option (Bool → Node → Loading Value)} {tag : Option Text}
    {text : Text} {style : ScalarStyle} {s r : Nat}
    (h : (contentWith inner tagRead (.scalar tag text style)).run s = .ok (v, r)) :
    scalar tagRead tag text style = .ok v := by
  cases hscalar : scalar tagRead tag text style with
  | error e => rw [contentWith, hscalar] at h; cases h
  | ok u =>
    rw [contentWith, hscalar] at h
    cases h
    rfl

theorem mapping_of_means (h : x.Means a false v) (hv : v.untagged = .mapping es) : ∃ tag ns,
    x.followed a false = some (false, .mapping tag ns) ∧ DistinctKeys es ∧
      EntriesMean a (markOf false tag).isSome ns es := by
  obtain ⟨inner, tagRead, y, s, r, hfollowed, hinner, h⟩ := content_of_means h
  obtain rfl := followed_of_false hfollowed
  cases y with
  | «alias» k => cases h
  | scalar tag text style =>
    have hleaf := untagged_scalar (scalar_of_content h)
    rw [hv] at hleaf
    cases hleaf
  | sequence tag items =>
    cases inner with
    | none => cases h
    | some read =>
      obtain ⟨vs, q, -, h⟩ := run_bind_eq_ok h
      cases h
      rw [untagged_marked] at hv
      cases hv
  | mapping tag ns =>
    cases inner with
    | none => cases h
    | some read =>
      obtain ⟨vs, q, hentries, h⟩ := run_bind_eq_ok h
      cases h
      rw [untagged_marked] at hv
      cases hv
      have hnil : DistinctKeys ([] : List (Value × Value)).reverse := List.Pairwise.nil
      obtain ⟨hdistinct, es', rfl, hread⟩ := entries_eq_ok hnil hentries
      refine ⟨tag, ns, hfollowed, hdistinct, hread.imp fun n p hp => ?_⟩
      obtain ⟨⟨q, q', hkey⟩, q₂, q₂', hvalue⟩ := hp
      exact ⟨hinner read rfl _ _ _ _ _ hkey, hinner read rfl _ _ _ _ _ hvalue⟩

theorem scalar_of_means (h : x.Means a tagRead v) (hv : v.isLeaf = true) :
    ∃ tagRead' tag text style, x.followed a tagRead = some (tagRead', .scalar tag text style) ∧
      scalar tagRead' tag text style = .ok v := by
  obtain ⟨inner, tagRead', y, s, r, hfollowed, -, h⟩ := content_of_means h
  have hmarked {mark : Option Text} {u : Value} (hu : u.isLeaf = false) :
      (marked mark u).isLeaf = false := by
    cases mark with
    | none => exact hu
    | some tag => rfl
  cases y with
  | «alias» k => cases h
  | scalar tag text style => exact ⟨tagRead', tag, text, style, hfollowed, scalar_of_content h⟩
  | sequence tag items =>
    cases inner with
    | none => cases h
    | some read =>
      obtain ⟨vs, q, -, h⟩ := run_bind_eq_ok h
      cases h
      rw [hmarked rfl] at hv
      cases hv
  | mapping tag ns =>
    cases inner with
    | none => cases h
    | some read =>
      obtain ⟨vs, q, -, h⟩ := run_bind_eq_ok h
      cases h
      rw [hmarked rfl] at hv
      cases hv

end Resolution

namespace Document

variable {d : Document} {x : Value} {es : List (Value × Value)}

theorem value_eq_ok (h : d.value = .ok x) : ∃ r,
    (Resolution.value d.anchors Resolution.depthLimit false d.root).run
      (Resolution.aliasesPerNode * d.size) = .ok (x, r) := by
  unfold Document.value Node.value at h
  generalize Resolution.aliasesPerNode * d.size = s at h ⊢
  rw [StateT.run'_eq] at h
  cases hrun : (Resolution.value d.anchors Resolution.depthLimit false d.root).run s with
  | error e => rw [hrun] at h; cases h
  | ok p =>
    rw [hrun] at h
    cases h
    exact ⟨p.2, rfl⟩

theorem means_of_value (h : d.value = .ok x) : d.root.Means d.anchors false x := by
  obtain ⟨r, hr⟩ := value_eq_ok h
  exact ⟨_, _, r, hr⟩

end Document
end VersionDrift.Yaml

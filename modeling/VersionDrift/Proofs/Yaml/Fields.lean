import VersionDrift.Proofs.Yaml.Changed
import VersionDrift.Proofs.Yaml.Sourced

/-!
# Nodes of fields

The entries of a mapping stand in the order of their nodes, so the value of a field has
a node. In documents that differ in leaves the nodes of a field differ in leaves, unless
the key is a leaf that differs.
-/

set_option autoImplicit false

namespace VersionDrift.Yaml

theorem Anchors.mem_of_node? {a : Anchors} {k : Nat} {x : Node} (h : a.node? k = some x) :
    ∃ n ∈ a.nodes, n.node = x := by
  obtain ⟨n, hn, hx⟩ := Option.map_eq_some_iff.mp h
  have hlater (ns : List AnchoredNode) (best : Option AnchoredNode)
      (h : ns.foldl later best = some n) : n ∈ ns ∨ best = some n := by
    induction ns generalizing best with
    | nil => exact .inr h
    | cons n' ns ih =>
      rcases ih _ h with hmem | hbest
      · exact .inl (List.mem_cons_of_mem _ hmem)
      · cases best with
        | none =>
          cases hbest
          exact .inl List.mem_cons_self
        | some b =>
          simp only [later] at hbest
          split at hbest
          · cases hbest
            exact .inl List.mem_cons_self
          · exact .inr hbest
  rcases hlater _ _ hn with hmem | hnone
  · exact ⟨n, List.mem_of_mem_filter hmem, hx⟩
  · cases hnone

namespace Node

def entryNode? (key : Text) : List (Node × Node) → List (Value × Value) → Option Node
  | n :: ns, (.string k, _) :: es => if k = key then some n.2 else entryNode? key ns es
  | _ :: ns, _ :: es => entryNode? key ns es
  | _, _ => none

def field? (a : Anchors) (key : Text) (x : Node) (v : Value) : Option Node :=
  match x.followed a false, v.untagged with
  | some (_, .mapping _ ns), .mapping es => entryNode? key ns es
  | _, _ => none

/-- The node at the end of a path of fields. -/
def at? (a : Anchors) : List Text → Node → Value → Option Node
  | [], x, _ => some x
  | key :: path, x, v => do at? a path (← x.field? a key v) (← v.get? key)

variable {key : Text} {k : Value} {n : Node × Node} {ns : List (Node × Node)}
  {es : List (Value × Value)} {v : Value}

@[simp]
theorem entryNode?_cons_self : entryNode? key (n :: ns) ((.string key, v) :: es) = some n.2 := by
  rw [entryNode?, if_pos rfl]

theorem entryNode?_cons_of_ne (hk : k ≠ .string key) :
    entryNode? key (n :: ns) ((k, v) :: es) = entryNode? key ns es := by
  cases k with
  | string s => rw [entryNode?, if_neg fun hs => hk (by rw [hs])]
  | _ => rfl

section

variable {a : Anchors} {x : Node} {u : Value} {tagRead : Bool}

theorem entryNode?_of_means (h : EntriesMean a tagRead ns es) (hv : Value.entry? key es = some v) :
    ∃ x, entryNode? key ns es = some x ∧ x.Means a false v := by
  induction h with
  | nil => cases hv
  | @cons n p ns es head tail ih =>
    obtain ⟨u, w⟩ := p
    by_cases hu : u = .string key
    · subst hu
      rw [Value.entry?_cons_self] at hv
      cases hv
      exact ⟨n.2, entryNode?_cons_self, head.2⟩
    · rw [Value.entry?_cons_of_ne hu] at hv
      rw [entryNode?_cons_of_ne hu]
      exact ih hv

theorem get_eq_some (h : v.get? key = some u) :
    ∃ es, v.untagged = .mapping es ∧ Value.entry? key es = some u := by
  unfold Value.get? at h
  split at h
  · next es hes => exact ⟨es, hes, h⟩
  · cases h

theorem field?_of_means (h : x.Means a false v) (hu : v.get? key = some u) :
    ∃ y, x.field? a key v = some y ∧ y.Means a false u := by
  obtain ⟨es, hes, hentry⟩ := get_eq_some hu
  obtain ⟨tag, ns, hfollowed, -, hread⟩ := Resolution.mapping_of_means h hes
  obtain ⟨y, hy, hmeans⟩ := entryNode?_of_means hread hentry
  refine ⟨y, ?_, hmeans⟩
  rw [field?, hfollowed, hes]
  exact hy

end

section

variable {a : Anchors} {ts : List Token} {x y : Node} {tagRead tagRead' : Bool}

theorem mem_of_entryNode? (h : entryNode? key ns es = some x) : ∃ n ∈ ns, n.2 = x := by
  fun_induction entryNode? with
  | case1 => exact ⟨_, List.mem_cons_self, Option.some.inj h⟩
  | case2 n ns k v es hk ih =>
    obtain ⟨n', hn', hx⟩ := ih h
    exact ⟨n', List.mem_cons_of_mem _ hn', hx⟩
  | case3 n ns e es he ih =>
    obtain ⟨n', hn', hx⟩ := ih h
    exact ⟨n', List.mem_cons_of_mem _ hn', hx⟩
  | case4 => cases h

theorem From.followed (ha : ∀ n ∈ a.nodes, n.node.From ts) (h : x.From ts)
    (hy : x.followed a tagRead = some (tagRead', y)) : y.From ts := by
  cases x with
  | «alias» k =>
    obtain ⟨z, hz, heq⟩ := Option.map_eq_some_iff.mp hy
    cases heq
    obtain ⟨n, hn, rfl⟩ := Anchors.mem_of_node? hz
    exact ha n hn
  | _ =>
    cases hy
    exact h

theorem From.field? (ha : ∀ n ∈ a.nodes, n.node.From ts) (h : x.From ts)
    (hy : x.field? a key v = some y) : y.From ts := by
  unfold Node.field? at hy
  split at hy
  · next tagRead tag ns es hx hv =>
    obtain ⟨n, hn, rfl⟩ := mem_of_entryNode? hy
    have hmapping := h.followed ha hx
    cases hmapping with
    | mapping tag keys values => exact values n hn
  · cases hy

theorem From.at? (ha : ∀ n ∈ a.nodes, n.node.From ts) {path : List Text} (h : x.From ts)
    (hy : x.at? a path v = some y) : y.From ts := by
  induction path generalizing x v with
  | nil =>
    cases hy
    exact h
  | cons key path ih =>
    obtain ⟨z, hz, hy⟩ := Option.bind_eq_some_iff.mp hy
    obtain ⟨u, -, hy⟩ := Option.bind_eq_some_iff.mp hy
    exact ih (h.field? ha hz) hy

end

section

variable {a b : Anchors} {old new : Text} {m : Nat} {x y : Node} {u w : Value} {tagRead : Bool}
  {ms : List (Node × Node)} {fs : List (Value × Value)}

theorem Edited.key_eq (hnew : Resolution.OnlyString new) (hanchors : Anchors.Edited old new a b)
    (h : Edited old new m x y) (hx : x.Means a tagRead u) (hy : y.Means b tagRead (.string key))
    (hkey : key ≠ new) : u = .string key := by
  obtain ⟨inner, tagRead₁, z, s, r, hz, -, hcontent⟩ := Resolution.content_of_means hx
  obtain ⟨z', i, hz', hedited⟩ := h.followed hanchors hz
  obtain ⟨tagRead₂, tag, text, style, hscalar, hstring⟩ := Resolution.scalar_of_means hy rfl
  cases hz'.symm.trans hscalar
  cases hedited with
  | kept =>
    have hsame := Resolution.scalar_of_content hcontent
    cases hsame.symm.trans hstring
    rfl
  | scalar style =>
    obtain ⟨-, hnewString⟩ :=
      Resolution.scalar_untagged (Resolution.scalar_of_content hcontent) hnew
    cases hstring.symm.trans hnewString
    exact absurd rfl hkey

theorem mem_of_edited (hnew : Resolution.OnlyString new) (hanchors : Anchors.Edited old new a b)
    (h : Summed (Paired (Edited old new)) m ns ms) (hes : EntriesMean a tagRead ns es)
    (hfs : EntriesMean b tagRead ms fs) (hkey : key ≠ new) (hmem : (.string key, w) ∈ fs) :
    ∃ u, (.string key, u) ∈ es := by
  induction h generalizing es fs with
  | nil =>
    cases hfs
    cases hmem
  | cons head tail ih =>
    cases hes with
    | @cons _ p _ es hp hes =>
    cases hfs with
    | @cons _ q _ fs hq hfs =>
    rcases List.mem_cons.mp hmem with rfl | hmem
    · cases head with
      | mk fst snd =>
        have hk := fst.key_eq hnew hanchors hp.1 hq.1 hkey
        exact ⟨p.2, by rw [← hk]; exact List.mem_cons_self⟩
    · obtain ⟨u, hu⟩ := ih hes hfs hmem
      exact ⟨u, List.mem_cons_of_mem _ hu⟩

theorem entryNode?_edited (hnew : Resolution.OnlyString new) (hanchors : Anchors.Edited old new a b)
    (h : Summed (Paired (Edited old new)) m ns ms) (hes : EntriesMean a tagRead ns es)
    (hfs : EntriesMean b tagRead ms fs) (hdistinct : Value.DistinctKeys es) (hkey : key ≠ new)
    (hu : Value.entry? key es = some u) (hw : Value.entry? key fs = some w) :
    ∃ x y i, entryNode? key ns es = some x ∧ Edited old new i x y ∧ x.Means a false u ∧
      y.Means b false w := by
  induction h generalizing es fs with
  | nil =>
    cases hes
    cases hu
  | @cons i j n n' ns ms head tail ih =>
    cases hes with
    | @cons _ p _ es hp hes =>
    cases hfs with
    | @cons _ q _ fs hq hfs =>
    obtain ⟨hfirst, hrest⟩ := List.pairwise_cons.mp hdistinct
    obtain ⟨k, v⟩ := p
    obtain ⟨k', v'⟩ := q
    cases head with
    | mk fst snd =>
      by_cases hk : k = .string key
      · subst hk
        rw [Value.entry?_cons_self] at hu
        cases hu
        by_cases hk' : k' = .string key
        · subst hk'
          rw [Value.entry?_cons_self] at hw
          cases hw
          exact ⟨_, _, _, entryNode?_cons_self, snd, hp.2, hq.2⟩
        · -- the second field would stand further down, and so would one of the first mapping
          rw [Value.entry?_cons_of_ne hk'] at hw
          obtain ⟨u', hu'⟩ := mem_of_edited hnew hanchors tail hes hfs hkey
            (Value.mem_of_entry_eq_some hw)
          have hsame := hfirst _ hu'
          simp [Value.same] at hsame
      · have hk' : k' ≠ .string key := by
          rintro rfl
          exact hk (fst.key_eq hnew hanchors hp.1 hq.1 hkey)
        rw [Value.entry?_cons_of_ne hk] at hu
        rw [Value.entry?_cons_of_ne hk'] at hw
        rw [entryNode?_cons_of_ne hk]
        exact ih hes hfs hrest hu hw

theorem Edited.field? (hnew : Resolution.OnlyString new) (hanchors : Anchors.Edited old new a b)
    (h : Edited old new m x y) (hx : x.Means a false v) (hy : y.Means b false k)
    (hu : v.get? key = some u) (hw : k.get? key = some w) (hkey : key ≠ new) :
    ∃ z z' i, x.field? a key v = some z ∧ Edited old new i z z' ∧ z.Means a false u ∧
      z'.Means b false w := by
  obtain ⟨es, hes, hu⟩ := get_eq_some hu
  obtain ⟨fs, hfs, hw⟩ := get_eq_some hw
  obtain ⟨tag, ns, hns, hdistinct, hread⟩ := Resolution.mapping_of_means hx hes
  obtain ⟨tag', ms, hms, -, hread'⟩ := Resolution.mapping_of_means hy hfs
  obtain ⟨z', i, hz', hedited⟩ := h.followed hanchors hns
  cases hms.symm.trans hz'
  cases hedited with
  | mapping tag entries =>
    obtain ⟨z, z', i, hz, hparts⟩ :=
      entryNode?_edited hnew hanchors entries hread hread' hdistinct hkey hu hw
    refine ⟨z, z', i, ?_, hparts⟩
    rw [Node.field?, hns, hes]
    exact hz

end

end Node
end VersionDrift.Yaml

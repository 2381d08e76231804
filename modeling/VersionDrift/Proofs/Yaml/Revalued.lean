import VersionDrift.Proofs.Yaml.OneEntry
import VersionDrift.Proofs.Yaml.Template

/-!
# The value of a document with another text

A document that is read with a text in a place is read with any other string there:
the keys are the same, and no alias inside the root leads back to the root, for then
the reading would not end. So nothing else that is read depends on the text.
-/

set_option autoImplicit false

namespace VersionDrift.Yaml

namespace Anchors

theorem foldl_later_some {x y : AnchoredNode} (h : x.begun = y.begun) (ns : List AnchoredNode) :
    ns.foldl later (some x) = some x ∧ ns.foldl later (some y) = some y ∨
      ns.foldl later (some x) = ns.foldl later (some y) := by
  induction ns with
  | nil => exact .inl ⟨rfl, rfl⟩
  | cons n ns ih =>
    simp only [List.foldl_cons, later, h]
    split
    · exact .inr rfl
    · exact ih

theorem node?_bind (before a : Anchors) (x y : Node) (k : Nat) :
    (before.bind y a).node? k = (before.bind x a).node? k ∨
      (before.bind x a).node? k = some x := by
  simp only [node?, bind]
  by_cases hk : before.names.length = k
  · rw [List.filter_cons_of_pos (by simpa using hk), List.filter_cons_of_pos (by simpa using hk)]
    simp only [List.foldl_cons, later]
    have hcases := @foldl_later_some ⟨before.names.length, before.begun, x⟩
      ⟨before.names.length, before.begun, y⟩ rfl (a.nodes.filter (·.number = k))
    rcases hcases with ⟨hx, -⟩ | heq
    · right
      rw [hx]
      rfl
    · left
      rw [heq]
  · left
    rw [List.filter_cons_of_neg (by simpa using hk), List.filter_cons_of_neg (by simpa using hk)]

end Anchors

namespace Resolution

open Node

/-- Whatever the first reading gives, the second one gives too. -/
def Within {α : Type} (f f' : Loading α) : Prop := ∀ s p, f.run s = .ok p → f'.run s = .ok p

namespace Within

variable {α β : Type}

theorem refl (f : Loading α) : Within f f := fun _ _ h => h

theorem throw {e : Error} {f' : Loading α} : Within (throw e) f' := by
  intro s p h
  cases h

theorem bind {f f' : Loading α} {g g' : α → Loading β} (hf : Within f f')
    (hg : ∀ x, Within (g x) (g' x)) : Within (f >>= g) (f' >>= g') := by
  intro s p h
  obtain ⟨x, q, hx, h⟩ := run_bind_eq_ok h
  rw [run_bind_of_eq_ok (hf s _ hx)]
  exact hg x q p h

theorem mapM {f f' : Node → Loading Value} {xs : List Node} (h : ∀ x ∈ xs, Within (f x) (f' x)) :
    Within (xs.mapM f) (xs.mapM f') := by
  induction xs with
  | nil => exact refl _
  | cons x xs ih =>
    rw [List.mapM_cons, List.mapM_cons]
    refine (h x List.mem_cons_self).bind fun v => ?_
    exact (ih fun y hy => h y (List.mem_cons_of_mem x hy)).bind fun vs => refl _

end Within

section

variable {key key' value value' : Node → Loading Value} {ns : List (Node × Node)}

theorem entries_after {done done' vs : List (Value × Value)} {s r : Nat}
    (hns : ∀ e ∈ ns, Within (key e.1) (key' e.1) ∧ Within (value e.2) (value' e.2))
    (hdone : done'.map Prod.fst = done.map Prod.fst)
    (h : (entries key value done ns).run s = .ok (vs, r)) : ∃ es, vs = done.reverse ++ es ∧
      (entries key' value' done' ns).run s = .ok (done'.reverse ++ es, r) := by
  induction ns generalizing done done' s with
  | nil =>
    cases h
    exact ⟨[], (List.append_nil _).symm, by rw [List.append_nil]; rfl⟩
  | cons e ns ih =>
    obtain ⟨k, x⟩ := e
    obtain ⟨hkey, hvalue⟩ := hns (k, x) List.mem_cons_self
    unfold entries at h ⊢
    obtain ⟨u, q, hu, h⟩ := run_bind_eq_ok h
    split at h
    · cases h
    next hnew =>
    obtain ⟨v, q', hv, h⟩ := run_bind_eq_ok h
    have hdone' : ((u, v) :: done').map Prod.fst = ((u, v) :: done).map Prod.fst := by
      rw [List.map_cons, List.map_cons, hdone]
    obtain ⟨es, rfl, hes⟩ := ih (fun e he => hns e (List.mem_cons_of_mem _ he)) hdone' h
    refine ⟨(u, v) :: es, by simp, ?_⟩
    have hnew' : ¬ (done'.any fun e => e.1.same u) = true := by
      rwa [any_same_of_keys_eq hdone]
    rw [run_bind_of_eq_ok (hkey s _ hu), if_neg hnew', run_bind_of_eq_ok (hvalue q _ hv), hes]
    simp

theorem Within.entries
    (hns : ∀ e ∈ ns, Within (key e.1) (key' e.1) ∧ Within (value e.2) (value' e.2)) :
    Within (entries key value [] ns) (Resolution.entries key' value' [] ns) := by
  intro s p h
  obtain ⟨vs, r⟩ := p
  obtain ⟨es, rfl, hes⟩ := entries_after hns rfl h
  exact hes

theorem entries_changed {xs ys : List (Node × Node)} {k x x' : Node} {P : Value → Value → Prop}
    {done vs : List (Value × Value)} {s r : Nat}
    (hxs : ∀ e ∈ xs, Within (key e.1) (key' e.1) ∧ Within (value e.2) (value' e.2))
    (hys : ∀ e ∈ ys, Within (key e.1) (key' e.1) ∧ Within (value e.2) (value' e.2))
    (hk : Within (key k) (key' k))
    (hx : ∀ s v r, (value x).run s = .ok (v, r) → ∃ v', (value' x').run s = .ok (v', r) ∧ P v v')
    (h : (entries key value done (xs ++ (k, x) :: ys)).run s = .ok (vs, r)) :
    ∃ us u v v' es, vs = us ++ (u, v) :: es ∧ P v v' ∧
      (∃ q q', (key k).run q = .ok (u, q')) ∧
      (entries key' value' done (xs ++ (k, x') :: ys)).run s = .ok (us ++ (u, v') :: es, r) := by
  induction xs generalizing done s with
  | nil =>
    rw [List.nil_append] at h ⊢
    unfold entries at h ⊢
    obtain ⟨u, q, hu, h⟩ := run_bind_eq_ok h
    split at h
    · cases h
    next hnew =>
    obtain ⟨v, q', hv, h⟩ := run_bind_eq_ok h
    obtain ⟨v', hv', hP⟩ := hx q v q' hv
    have hdone : ((u, v') :: done).map Prod.fst = ((u, v) :: done).map Prod.fst := rfl
    obtain ⟨es, rfl, hes⟩ := entries_after hys hdone h
    refine ⟨done.reverse, u, v, v', es, by simp, hP, ⟨s, q, hu⟩, ?_⟩
    rw [run_bind_of_eq_ok (hk s _ hu), if_neg hnew, run_bind_of_eq_ok hv', hes]
    simp
  | cons e xs ih =>
    obtain ⟨k₀, x₀⟩ := e
    obtain ⟨hkey, hvalue⟩ := hxs (k₀, x₀) List.mem_cons_self
    rw [List.cons_append] at h ⊢
    unfold entries at h ⊢
    obtain ⟨u₀, q, hu, h⟩ := run_bind_eq_ok h
    split at h
    · cases h
    next hnew =>
    obtain ⟨v₀, q', hv, h⟩ := run_bind_eq_ok h
    rw [run_bind_of_eq_ok (hkey s _ hu), if_neg hnew, run_bind_of_eq_ok (hvalue q _ hv)]
    exact ih (fun e he => hxs e (List.mem_cons_of_mem _ he)) h

end

def partsAt (a : Anchors) : Nat → Option (Bool → Node → Loading Value)
  | 0 => none
  | depth + 1 => some (value a depth)

theorem value_eq (a : Anchors) (depth : Nat) : value a depth = valueWith a (partsAt a depth) := by
  cases depth <;> rfl

variable {a b : Anchors} {x y : Node} {tagRead : Bool} {depth s : Nat} {p : Value × Nat}

theorem valueWith_of_ne (hx : ∀ j, x ≠ .alias j) (a : Anchors)
    (inner : Option (Bool → Node → Loading Value)) (tagRead : Bool) :
    valueWith a inner tagRead x = contentWith inner tagRead x := by
  cases x with
  | «alias» k => exact absurd rfl (hx k)
  | _ => rfl

theorem value_of_ne (hx : ∀ j, x ≠ .alias j) :
    value a depth tagRead x = contentWith (partsAt a depth) tagRead x := by
  rw [value_eq, valueWith_of_ne hx]

theorem run_of_content (h : (contentWith (partsAt a depth) tagRead x).run s = .ok p) :
    (value a depth tagRead x).run s = .ok p := by
  rw [value_of_ne]
  · exact h
  · rintro j rfl
    cases h

theorem run_of_alias {k : Nat} (h : (value a depth tagRead (.alias k)).run s = .ok p) :
    ∃ z r, a.node? k = some z ∧ s = r + 1 ∧
      (contentWith (partsAt a depth) false z).run r = .ok p := by
  rw [value_eq] at h
  obtain ⟨q, r, hq, h⟩ := run_bind_eq_ok h
  obtain ⟨z, hz, rfl, hs⟩ := follow_alias_eq_ok.mp hq
  exact ⟨z, r, hz, hs, h⟩

theorem run_of_mem_mapM {f : Node → Loading Value} {xs : List Node} {r : List Value × Nat}
    (h : (xs.mapM f).run s = .ok r) (hx : x ∈ xs) : ∃ q p, (f x).run q = .ok p := by
  induction xs generalizing s r with
  | nil => cases hx
  | cons y xs ih =>
    rw [List.mapM_cons] at h
    obtain ⟨v, q, hv, h⟩ := run_bind_eq_ok h
    obtain ⟨vs, q', hvs, -⟩ := run_bind_eq_ok h
    rcases List.mem_cons.mp hx with rfl | hx
    · exact ⟨s, _, hv⟩
    · exact ih hvs hx

theorem run_of_mem_entries {key value : Node → Loading Value} {ns : List (Node × Node)}
    {done : List (Value × Value)} {r : List (Value × Value) × Nat} {e : Node × Node}
    (h : (entries key value done ns).run s = .ok r) (he : e ∈ ns) :
    (∃ q p, (key e.1).run q = .ok p) ∧ ∃ q p, (value e.2).run q = .ok p := by
  induction ns generalizing done s with
  | nil => cases he
  | cons n ns ih =>
    unfold entries at h
    obtain ⟨u, q, hu, h⟩ := run_bind_eq_ok h
    split at h
    · cases h
    obtain ⟨v, q', hv, h⟩ := run_bind_eq_ok h
    rcases List.mem_cons.mp he with rfl | he
    · exact ⟨⟨s, _, hu⟩, q, _, hv⟩
    · exact ih h he

theorem run_of_item {tag : Option Text} {xs : List Node}
    (h : (value a depth tagRead (.sequence tag xs)).run s = .ok p) (hx : x ∈ xs) :
    ∃ depth' < depth, ∃ r q, (value a depth' false x).run r = .ok q := by
  rw [value_of_ne (x := .sequence tag xs) nofun] at h
  cases depth with
  | zero => cases h
  | succ depth =>
    obtain ⟨vs, q, hvs, -⟩ := run_bind_eq_ok h
    exact ⟨depth, Nat.lt_succ_self depth, run_of_mem_mapM hvs hx⟩

theorem run_of_entry {tag : Option Text} {es : List (Node × Node)} {e : Node × Node}
    (h : (value a depth tagRead (.mapping tag es)).run s = .ok p) (he : e ∈ es) :
    ∃ depth' < depth, (∃ tagRead' r q, (value a depth' tagRead' e.1).run r = .ok q) ∧
      ∃ r q, (value a depth' false e.2).run r = .ok q := by
  rw [value_of_ne (x := .mapping tag es) nofun] at h
  cases depth with
  | zero => cases h
  | succ depth =>
    obtain ⟨vs, q, hvs, -⟩ := run_bind_eq_ok h
    obtain ⟨hkey, hvalue⟩ := run_of_mem_entries hvs he
    exact ⟨depth, Nat.lt_succ_self depth, ⟨_, hkey⟩, hvalue⟩

theorem run_of_follows {k : Nat} (hk : Follows a x k)
    (h : (value a depth tagRead x).run s = .ok p) : ∃ depth' z r q, depth' ≤ depth ∧
      ((∀ j, x ≠ .alias j) → depth' < depth) ∧ a.node? k = some z ∧
      (value a depth' false z).run r = .ok q := by
  induction hk generalizing depth tagRead s p with
  | here k =>
    obtain ⟨z, r, hz, -, h⟩ := run_of_alias h
    exact ⟨depth, z, r, p, Nat.le_refl depth, fun hx => absurd rfl (hx k), hz, run_of_content h⟩
  | @beyond k j z target more ih =>
    obtain ⟨z', r, hz', -, h⟩ := run_of_alias h
    obtain rfl := Option.some.inj (target.symm.trans hz')
    obtain ⟨depth', y, r', q, hdepth, -, hy, hr'⟩ := ih (run_of_content h)
    exact ⟨depth', y, r', q, hdepth, fun hx => absurd rfl (hx k), hy, hr'⟩
  | @item tag xs x j mem more ih =>
    obtain ⟨d, hd, r, q, hq⟩ := run_of_item h mem
    obtain ⟨depth', y, r', q', hdepth, -, hy, hr'⟩ := ih hq
    exact ⟨depth', y, r', q', by omega, fun _ => by omega, hy, hr'⟩
  | @key tag es k x j mem more ih =>
    obtain ⟨d, hd, ⟨_, r, q, hq⟩, -⟩ := run_of_entry h mem
    obtain ⟨depth', y, r', q', hdepth, -, hy, hr'⟩ := ih hq
    exact ⟨depth', y, r', q', by omega, fun _ => by omega, hy, hr'⟩
  | @value tag es k x j mem more ih =>
    obtain ⟨d, hd, -, r, q, hq⟩ := run_of_entry h mem
    obtain ⟨depth', y, r', q', hdepth, -, hy, hr'⟩ := ih hq
    exact ⟨depth', y, r', q', by omega, fun _ => by omega, hy, hr'⟩

/-- A collection that is read does not lead back to itself: it would be read at ever smaller
depths. -/
theorem node?_ne_of_follows {k : Nat} (hx : ∀ j, x ≠ .alias j)
    (h : (value a depth tagRead x).run s = .ok p) (hk : Follows a x k) : a.node? k ≠ some x := by
  induction depth using Nat.strongRecOn generalizing tagRead s p with
  | _ depth ih =>
    intro hself
    obtain ⟨depth', z, r, q, -, hdepth, hz, hr⟩ := run_of_follows hk h
    obtain rfl := Option.some.inj (hself.symm.trans hz)
    exact ih depth' (hdepth hx) hr hself

theorem within_content {inner inner' : Option (Bool → Node → Loading Value)}
    (hinner : Option.Rel (fun read read' => ∀ tagRead x, Kept a b x →
      Within (read tagRead x) (read' tagRead x)) inner inner') (hkept : Kept a b x)
    (tagRead : Bool) : Within (contentWith inner tagRead x) (contentWith inner' tagRead x) := by
  cases x with
  | «alias» k => exact .throw
  | scalar tag text style => exact .refl _
  | sequence tag xs =>
    cases hinner with
    | none => exact .throw
    | some hread =>
      have hitems := (kept_sequence tag xs).mp hkept
      exact (Within.mapM fun x hx => hread false x (hitems x hx)).bind fun vs => .refl _
  | mapping tag es =>
    cases hinner with
    | none => exact .throw
    | some hread =>
      have hentries := (kept_mapping tag es).mp hkept
      exact (Within.entries fun e he => ⟨hread _ e.1 (hentries e he).1,
        hread false e.2 (hentries e he).2⟩).bind fun vs => .refl _

theorem within_valueWith {inner inner' : Option (Bool → Node → Loading Value)}
    (hinner : Option.Rel (fun read read' => ∀ tagRead x, Kept a b x →
      Within (read tagRead x) (read' tagRead x)) inner inner') (hkept : Kept a b x)
    (tagRead : Bool) : Within (valueWith a inner tagRead x) (valueWith b inner' tagRead x) := by
  by_cases halias : ∃ k, x = .alias k
  · obtain ⟨k, rfl⟩ := halias
    intro s p h
    obtain ⟨q, r, hq, h⟩ := run_bind_eq_ok h
    obtain ⟨z, hz, rfl, hs⟩ := follow_alias_eq_ok.mp hq
    obtain ⟨hsame, hkept⟩ := (kept_alias hz).mp hkept
    have hq' : (follow b tagRead (.alias k)).run s = .ok ((false, z), r) :=
      follow_alias_eq_ok.mpr ⟨z, hsame.trans hz, rfl, hs⟩
    unfold valueWith
    rw [run_bind_of_eq_ok hq']
    exact within_content hinner hkept false r p h
  · have hx : ∀ k, x ≠ .alias k := fun k hk => halias ⟨k, hk⟩
    rw [valueWith_of_ne hx, valueWith_of_ne hx]
    exact within_content hinner hkept tagRead

/-- A node is read in the same way where all that it follows is kept. -/
theorem within_of_kept (hkept : Kept a b x) (depth : Nat) (tagRead : Bool) :
    Within (value a depth tagRead x) (value b depth tagRead x) := by
  induction depth generalizing x tagRead with
  | zero => exact within_valueWith .none hkept tagRead
  | succ depth ih => exact within_valueWith (.some fun tagRead x hx => ih hx tagRead) hkept tagRead

theorem entry?_append_cons {k : Text} {v : Value} {us es : List (Value × Value)}
    (h : Value.DistinctKeys (us ++ (.string k, v) :: es)) :
    Value.entry? k (us ++ (.string k, v) :: es) = some v := by
  induction us with
  | nil => exact if_pos rfl
  | cons u us ih =>
    obtain ⟨hu, hrest⟩ := List.pairwise_cons.mp h
    have hne : u.1 ≠ .string k := by
      intro hk
      have hsame := hu (.string k, v) (by simp)
      rw [hk] at hsame
      simp [Value.same] at hsame
    rw [List.cons_append, ← ih hrest]
    obtain ⟨u, w⟩ := u
    cases u with
    | string s => exact if_neg fun hs => hne (by rw [hs])
    | _ => rfl

theorem run_scalar_changed (b : Anchors) {w t : Text} {style : ScalarStyle} (ht : OnlyString t)
    (h : (value a depth tagRead (.scalar none w style)).run s = .ok p) : LeafOf w p.1 ∧
      (value b depth tagRead (.scalar none t style)).run s = .ok (.string t, p.2) := by
  rw [run_scalar] at h ⊢
  cases hw : scalar tagRead none w style with
  | error e =>
    rw [hw] at h
    cases h
  | ok v =>
    rw [hw] at h
    cases h
    obtain ⟨hleaf, hstring⟩ := scalar_untagged hw ht
    rw [hstring]
    exact ⟨hleaf, rfl⟩

theorem run_mapping_changed {xs ys : List (Node × Node)} {k : Text} {x x' : Node}
    {tag : Option Text} {P : Value → Value → Prop} {v : Value} {r : Nat} (hk : OnlyString k)
    (hxs : ∀ e ∈ xs, Kept a b e.1 ∧ Kept a b e.2) (hys : ∀ e ∈ ys, Kept a b e.1 ∧ Kept a b e.2)
    (hx : ∀ s v r, (value a depth false x).run s = .ok (v, r) →
      ∃ v', (value b depth false x').run s = .ok (v', r) ∧ P v v')
    (h : (value a (depth + 1) tagRead
      (.mapping tag (xs ++ (.scalar none k .plain, x) :: ys))).run s = .ok (v, r)) :
    ∃ es es' u u', v = marked (markOf tagRead tag) (.mapping es) ∧ Value.entry? k es = some u ∧
      Value.entry? k es' = some u' ∧ P u u' ∧
      (value b (depth + 1) tagRead (.mapping tag (xs ++ (.scalar none k .plain, x') :: ys))).run s =
        .ok (marked (markOf tagRead tag) (.mapping es'), r) := by
  rw [value_of_ne (x := .mapping tag _) nofun] at h ⊢
  obtain ⟨vs, q, hvs, h⟩ := run_bind_eq_ok h
  cases h
  have hwithin {ns : List (Node × Node)} (hns : ∀ e ∈ ns, Kept a b e.1 ∧ Kept a b e.2)
      (tagRead : Bool) : ∀ e ∈ ns, Within (value a depth tagRead e.1) (value b depth tagRead e.1) ∧
        Within (value a depth false e.2) (value b depth false e.2) := fun e he =>
    ⟨within_of_kept (hns e he).1 depth tagRead, within_of_kept (hns e he).2 depth false⟩
  obtain ⟨us, u, v, v', es, rfl, hP, ⟨q, q', hu⟩, hread⟩ := entries_changed (hwithin hxs _)
    (hwithin hys _) (within_of_kept (kept_scalar none k .plain) depth _) hx hvs
  obtain rfl : u = .string k := by
    have hkey := (run_scalar_changed a hk hu).2
    rw [hu] at hkey
    cases hkey
    rfl
  have hnil : Value.DistinctKeys ([] : List (Value × Value)).reverse := List.Pairwise.nil
  refine ⟨_, _, v, v', rfl, entry?_append_cons (entries_eq_ok hnil hvs).1,
    entry?_append_cons (entries_eq_ok hnil hread).1, hP, ?_⟩
  exact run_bind_of_eq_ok hread

end Resolution

theorem Document.value_of_run {d : Document} {v : Value} {r : Nat}
    (h : (Resolution.value d.anchors Resolution.depthLimit false d.root).run
      (Resolution.aliasesPerNode * d.size) = .ok (v, r)) : d.value = .ok v := by
  unfold Document.value Node.value
  rw [StateT.run'_eq, h]
  rfl

namespace Document.Template

open Node Resolution

variable {p : Template} {w t : Text} {x : Node}

theorem node?_filledAnchors (p : Template) (w t : Text) (k : Nat) :
    (p.filledAnchors t).node? k = (p.filledAnchors w).node? k ∨
      (p.filledAnchors w).node? k = some (p.root w) := by
  unfold filledAnchors
  cases p.before with
  | none => exact .inl rfl
  | some before => exact Anchors.node?_bind before p.anchors (p.root w) (p.root t) k

theorem kept_root {depth s : Nat} {q : Value × Nat}
    (h : (Resolution.value (p.filledAnchors w) depth false (p.root w)).run s = .ok q) (t : Text) :
    Node.Kept (p.filledAnchors w) (p.filledAnchors t) (p.root w) := fun k hk =>
  (p.node?_filledAnchors w t k).resolve_right (node?_ne_of_follows nofun h hk)

theorem run_fields_changed {a b : Anchors} {depth s r : Nat} {v : Value}
    (hinner : OnlyString p.inner) (ht : OnlyString t)
    (hkept : Node.Kept a b (.mapping none (p.fields w)))
    (h : (Resolution.value a (depth + 1) false (.mapping none (p.fields w))).run s = .ok (v, r)) :
    ∃ v', (Resolution.value b (depth + 1) false (.mapping none (p.fields t))).run s = .ok (v', r) ∧
      ∃ cs cs' y, v = .mapping cs ∧ v' = .mapping cs' ∧ Value.entry? p.inner cs = some y ∧
        LeafOf w y ∧ Value.entry? p.inner cs' = some (.string t) := by
  have hfields := (kept_mapping none (p.fields w)).mp hkept
  obtain ⟨cs, cs', y, y', hv, hy, hy', ⟨hleaf, rfl⟩, hread⟩ := run_mapping_changed
    (P := fun y y' => LeafOf w y ∧ y' = .string t) hinner
    (fun e he => hfields e (List.mem_append_left _ he))
    (fun e he => hfields e (List.mem_append_right _ (List.mem_cons_of_mem _ he)))
    (fun s v r hv => have hchanged := run_scalar_changed b ht hv
      ⟨.string t, hchanged.2, hchanged.1, rfl⟩) h
  exact ⟨_, hread, cs, cs', y, hv, rfl, hy, hleaf, hy'⟩

/-- With another string the document has a value again, and that string is the scalar's. -/
theorem value_fill {v : Value} (houter : OnlyString p.outer) (hinner : OnlyString p.inner)
    (ht : OnlyString t) (h : (p.fill w).value = .ok v) : ∃ v' cs cs' y,
      v.get? p.outer = some (.mapping cs) ∧ Value.entry? p.inner cs = some y ∧ LeafOf w y ∧
      (p.fill t).value = .ok v' ∧ v'.get? p.outer = some (.mapping cs') ∧
      Value.entry? p.inner cs' = some (.string t) := by
  obtain ⟨r, hr⟩ := value_eq_ok h
  have hentries := (kept_mapping p.tag (p.entries w)).mp (kept_root hr t)
  have hcontext := (hentries (.scalar none p.outer .plain, .mapping none (p.fields w))
    (List.mem_append_right _ List.mem_cons_self)).2
  obtain ⟨es, es', u, u', rfl, hu, hu', ⟨cs, cs', y, rfl, rfl, hy, hleaf, hy'⟩, hread⟩ :=
    run_mapping_changed houter (fun e he => hentries e (List.mem_append_left _ he))
      (fun e he => hentries e (List.mem_append_right _ (List.mem_cons_of_mem _ he)))
      (fun s v r hv => run_fields_changed hinner ht hcontext hv) hr
  have hget {mark : Option Text} {es : List (Value × Value)} :
      (marked mark (.mapping es)).get? p.outer = Value.entry? p.outer es := by
    rw [Value.get?, untagged_marked]
    rfl
  exact ⟨_, cs, cs', y, hget.trans hu, hy, hleaf, value_of_run (d := p.fill t) hread,
    hget.trans hu', hy'⟩

end Document.Template
end VersionDrift.Yaml

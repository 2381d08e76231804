import VersionDrift.Proofs.Yaml.Composed

/-!
# Values of nodes that differ in leaves

Nodes that differ in `n` leaves have values that differ in at least `n` places, all
of them strings in the second value. There are more only where an alias is followed
to a node that differs. A key can occur twice in the second value only, where a key
is no scalar or is one of the leaves.
-/

set_option autoImplicit false

namespace VersionDrift.Yaml

def Value.isLeaf : Value → Bool
  | .null | .boolean _ | .number _ | .string _ => true
  | _ => false

/-- Values that differ in `n` leaves, which are the string `new` in the second value only. -/
inductive Value.Edited (new : Text) : Nat → Value → Value → Prop
  | kept (x : Value) (leaf : x.isLeaf = true) : Value.Edited new 0 x x
  | string (x : Value) (leaf : x.isLeaf = true) (other : x ≠ .string new) :
      Value.Edited new 1 x (.string new)
  | sequence {n : Nat} {xs ys : List Value} (items : Summed (Value.Edited new) n xs ys) :
      Value.Edited new n (.sequence xs) (.sequence ys)
  | mapping {n : Nat} {xs ys : List (Value × Value)}
      (entries : Summed (Paired (Value.Edited new)) n xs ys) :
      Value.Edited new n (.mapping xs) (.mapping ys)
  | tagged {n : Nat} {x y : Value} (tag : Text) (value : Value.Edited new n x y) :
      Value.Edited new n (.tagged tag x) (.tagged tag y)

namespace Value

mutual

def count (t : Text) : Value → Nat
  | .string s => if s = t then 1 else 0
  | .sequence xs => countItems t xs
  | .mapping es => countEntries t es
  | .tagged _ x => count t x
  | .null => 0
  | .boolean _ => 0
  | .number _ => 0

def countItems (t : Text) : List Value → Nat
  | [] => 0
  | x :: xs => count t x + countItems t xs

def countEntries (t : Text) : List (Value × Value) → Nat
  | [] => 0
  | (k, x) :: es => count t k + count t x + countEntries t es

end

variable {new : Text} {n : Nat}

theorem count_of_isLeaf {x : Value} (h : x.isLeaf = true) (hx : x ≠ .string new) :
    x.count new = 0 := by
  cases x with
  | string s =>
    have hne : s ≠ new := fun hs => hx (by rw [hs])
    rw [count, if_neg hne]
  | null => rfl
  | boolean b => rfl
  | number m => rfl
  | sequence xs => cases h
  | mapping es => cases h
  | tagged tag x => cases h

theorem Edited.parts {P : Nat → Value → Value → Prop}
    (kept : ∀ x : Value, x.isLeaf = true → P 0 x x)
    (string : ∀ x : Value, x.isLeaf = true → x ≠ .string new → P 1 x (.string new))
    (sequence : ∀ n xs ys, Summed P n xs ys → P n (.sequence xs) (.sequence ys))
    (mapping : ∀ n es fs, Summed (Paired P) n es fs → P n (.mapping es) (.mapping fs))
    (tagged : ∀ n tag x y, P n x y → P n (.tagged tag x) (.tagged tag y))
    {x y : Value} (h : Edited new n x y) : P n x y :=
  Edited.rec (motive_1 := fun n x y _ => P n x y) (motive_2 := fun n xs ys _ => Summed P n xs ys)
    (motive_3 := fun n es fs _ => Summed (Paired P) n es fs)
    (motive_4 := fun n p q _ => Paired P n p q)
    kept string (fun _ ih => sequence _ _ _ ih) (fun _ ih => mapping _ _ _ ih)
    (fun tag _ ih => tagged _ tag _ _ ih) .nil (fun _ _ ihHead ihTail => .cons ihHead ihTail) .nil
    (fun _ _ ihHead ihTail => .cons ihHead ihTail) (fun _ _ ihFst ihSnd => .mk ihFst ihSnd) h

theorem countItems_eq {xs ys : List Value}
    (h : Summed (fun n x y => Value.count new y = Value.count new x + n) n xs ys) :
    countItems new ys = countItems new xs + n := by
  induction h with
  | nil => rfl
  | cons head tail ih =>
    simp only [countItems]
    omega

theorem countEntries_eq {es fs : List (Value × Value)}
    (h : Summed (Paired fun n x y => Value.count new y = Value.count new x + n) n es fs) :
    countEntries new fs = countEntries new es + n := by
  induction h with
  | nil => rfl
  | cons head tail ih =>
    cases head with
    | mk fst snd =>
      simp only [countEntries]
      omega

theorem Edited.count {x y : Value} (h : Edited new n x y) : y.count new = x.count new + n := by
  refine Edited.parts (P := fun n x y => Value.count new y = Value.count new x + n)
    (fun x _ => rfl) (fun x leaf other => ?_) (fun n xs ys ih => ?_) (fun n es fs ih => ?_)
    (fun n tag x y ih => ?_) h
  · rw [count_of_isLeaf leaf other, Value.count, if_pos rfl]
  · simpa only [Value.count] using countItems_eq ih
  · simpa only [Value.count] using countEntries_eq ih
  · simpa only [Value.count] using ih

/-- Values are the same exactly when they do not differ in any leaf. -/
theorem Edited.eq_iff {x y : Value} (h : Edited new n x y) : y = x ↔ n = 0 := by
  refine Edited.parts (P := fun n x y => y = x ↔ n = 0) (fun x _ => by simp)
    (fun x leaf other => by simp [Ne.symm other]) (fun n xs ys ih => ?_) (fun n es fs ih => ?_)
    (fun n tag x y ih => ?_) h
  · rw [Value.sequence.injEq]
    exact ih.eq_iff fun _ _ _ h => h
  · rw [Value.mapping.injEq]
    exact ih.eq_iff fun _ _ _ h => h.eq_iff fun _ _ _ h => h
  · simpa using ih

end Value

namespace Node

variable {old new : Text} {n : Nat}

theorem Edited.parts {P : Nat → Node → Node → Prop}
    (kept : ∀ tag text style, P 0 (.scalar tag text style) (.scalar tag text style))
    (scalar : ∀ style, P 1 (.scalar none old style) (.scalar none new style))
    (aliased : ∀ k, P 0 (.alias k) (.alias k))
    (sequence : ∀ n tag xs ys, Summed P n xs ys → P n (.sequence tag xs) (.sequence tag ys))
    (mapping : ∀ n tag es fs, Summed (Paired P) n es fs → P n (.mapping tag es) (.mapping tag fs))
    {x y : Node} (h : Edited old new n x y) : P n x y :=
  Edited.rec (motive_1 := fun n x y _ => P n x y) (motive_2 := fun n xs ys _ => Summed P n xs ys)
    (motive_3 := fun n es fs _ => Summed (Paired P) n es fs)
    (motive_4 := fun n p q _ => Paired P n p q)
    kept scalar aliased (fun tag _ ih => sequence _ tag _ _ ih)
    (fun tag _ ih => mapping _ tag _ _ ih) .nil (fun _ _ ihHead ihTail => .cons ihHead ihTail) .nil
    (fun _ _ ihHead ihTail => .cons ihHead ihTail) (fun _ _ ihFst ihSnd => .mk ihFst ihSnd) h

theorem Edited.eq_iff (hne : old ≠ new) {x y : Node} (h : Edited old new n x y) :
    y = x ↔ n = 0 := by
  refine Edited.parts (P := fun n x y => y = x ↔ n = 0) (fun _ _ _ => by simp)
    (fun _ => by simp [Ne.symm hne]) (fun _ => by simp) (fun n tag xs ys ih => ?_)
    (fun n tag es fs ih => ?_) h
  · simpa using ih.eq_iff fun _ _ _ h => h
  · simpa using ih.eq_iff fun _ _ _ h => h.eq_iff fun _ _ _ h => h

/-- The anchors whose nodes are read along with a node: of the aliases in it, and of the aliases in
the nodes that these stand for. -/
inductive Follows (anchors : Anchors) : Node → Nat → Prop
  | here (k : Nat) : Follows anchors (.alias k) k
  | beyond {k j : Nat} {x : Node} (target : anchors.node? k = some x) (more : Follows anchors x j) :
      Follows anchors (.alias k) j
  | item {tag : Option Text} {xs : List Node} {x : Node} {j : Nat} (mem : x ∈ xs)
      (more : Follows anchors x j) : Follows anchors (.sequence tag xs) j
  | key {tag : Option Text} {es : List (Node × Node)} {k x : Node} {j : Nat} (mem : (k, x) ∈ es)
      (more : Follows anchors k j) : Follows anchors (.mapping tag es) j
  | value {tag : Option Text} {es : List (Node × Node)} {k x : Node} {j : Nat} (mem : (k, x) ∈ es)
      (more : Follows anchors x j) : Follows anchors (.mapping tag es) j

/-- Every anchor that is followed from a node stands for the same node on both sides. -/
def Kept (a b : Anchors) (x : Node) : Prop := ∀ k, Follows a x k → b.node? k = a.node? k

variable {a b : Anchors}

@[simp] theorem kept_scalar (tag : Option Text) (text : Text) (style : ScalarStyle) :
    Kept a b (.scalar tag text style) := by
  intro k hk
  cases hk

theorem kept_sequence (tag : Option Text) (xs : List Node) :
    Kept a b (.sequence tag xs) ↔ ∀ x ∈ xs, Kept a b x := by
  constructor
  · intro h x hx k hk
    exact h k (.item hx hk)
  · intro h k hk
    cases hk with
    | item mem more => exact h _ mem k more

theorem kept_mapping (tag : Option Text) (es : List (Node × Node)) :
    Kept a b (.mapping tag es) ↔ ∀ p ∈ es, Kept a b p.1 ∧ Kept a b p.2 := by
  constructor
  · intro h p hp
    exact ⟨fun k hk => h k (.key hp hk), fun k hk => h k (.value hp hk)⟩
  · intro h k hk
    cases hk with
    | key mem more => exact (h _ mem).1 k more
    | value mem more => exact (h _ mem).2 k more

theorem kept_alias {k : Nat} {x : Node} (hx : a.node? k = some x) :
    Kept a b (.alias k) ↔ b.node? k = a.node? k ∧ Kept a b x := by
  constructor
  · intro h
    exact ⟨h k (.here k), fun j hj => h j (.beyond hx hj)⟩
  · rintro ⟨hk, hkept⟩ j hj
    cases hj with
    | here => exact hk
    | beyond target more =>
      rw [hx] at target
      cases target
      exact hkept j more

inductive KeysAvoid (t : Text) : Node → Prop
  | scalar (tag : Option Text) (text : Text) (style : ScalarStyle) :
      KeysAvoid t (.scalar tag text style)
  | aliased (k : Nat) : KeysAvoid t (.alias k)
  | sequence (tag : Option Text) {xs : List Node} (items : ∀ x ∈ xs, KeysAvoid t x) :
      KeysAvoid t (.sequence tag xs)
  | mapping (tag : Option Text) {es : List (Node × Node)}
      (keys : ∀ p ∈ es, ∃ tag text style, p.1 = .scalar tag text style ∧ text ≠ t)
      (values : ∀ p ∈ es, KeysAvoid t p.2) : KeysAvoid t (.mapping tag es)

theorem Edited.kept_of_key {x y : Node} (h : Edited old new n x y)
    (hx : ∃ tag text style, x = .scalar tag text style ∧ text ≠ old) : n = 0 ∧ Kept a b x := by
  obtain ⟨tag, text, style, rfl, hne⟩ := hx
  cases h with
  | kept => exact ⟨rfl, kept_scalar tag text style⟩
  | scalar => exact absurd rfl hne

end Node

namespace Anchors

variable {old new : Text} {a b : Anchors}

theorem filter_edited {n : Nat} {as bs : List AnchoredNode} (k : Nat)
    (h : Summed (AnchoredNode.Edited old new) n as bs) :
    ∃ m, Summed (AnchoredNode.Edited old new) m (as.filter (·.number = k))
      (bs.filter (·.number = k)) := by
  induction h with
  | nil => exact ⟨0, .nil⟩
  | @cons i j x y as bs head tail ih =>
    obtain ⟨m, hm⟩ := ih
    cases head with
    | mk number begun node =>
      by_cases hk : number = k
      · rw [List.filter_cons_of_pos (by simp [hk]), List.filter_cons_of_pos (by simp [hk])]
        exact ⟨_, .cons (.mk number begun node) hm⟩
      · rw [List.filter_cons_of_neg (by simp [hk]), List.filter_cons_of_neg (by simp [hk])]
        exact ⟨m, hm⟩

theorem foldl_later_edited {n : Nat} {as bs : List AnchoredNode}
    (h : Summed (AnchoredNode.Edited old new) n as bs) {best best' : Option AnchoredNode}
    (hbest : Option.Rel (fun x y => ∃ i, AnchoredNode.Edited old new i x y) best best') :
    Option.Rel (fun x y => ∃ i, AnchoredNode.Edited old new i x y) (as.foldl later best)
      (bs.foldl later best') := by
  induction h generalizing best best' with
  | nil => exact hbest
  | cons head tail ih =>
    apply ih
    cases hbest with
    | none => exact .some ⟨_, head⟩
    | some hrel =>
      obtain ⟨i, hi⟩ := hrel
      cases hi with
      | mk number begun node =>
        cases head with
        | mk number' begun' node' =>
          simp only [later]
          split
          · exact .some ⟨_, .mk number' begun' node'⟩
          · exact .some ⟨_, .mk number begun node⟩

theorem Edited.node? (h : Anchors.Edited old new a b) {k : Nat} {x : Node}
    (hx : a.node? k = some x) : ∃ y n, b.node? k = some y ∧ Node.Edited old new n x y := by
  obtain ⟨n, hnodes⟩ := h.nodes
  obtain ⟨m, hnodes⟩ := filter_edited k hnodes
  have hrel := foldl_later_edited hnodes .none
  unfold Anchors.node? at hx ⊢
  generalize (a.nodes.filter (·.number = k)).foldl later none = best at hx hrel
  generalize (b.nodes.filter (·.number = k)).foldl later none = best' at hrel ⊢
  cases hrel with
  | none => cases hx
  | some hrel =>
    obtain ⟨i, hi⟩ := hrel
    cases hi with
    | mk number begun node =>
      cases hx
      exact ⟨_, i, rfl, node⟩

end Anchors

namespace Resolution

variable {α β : Type}

/-- If the first reading succeeds, the second one from the same state ends in one state with it and
with a result in relation, unless it finds a key twice, which it does not where `H` holds. -/
def Alike (H : Prop) (f f' : Loading α) (Q : α → α → Prop) : Prop :=
  ∀ s x r, f.run s = .ok (x, r) →
    (∃ x', f'.run s = .ok (x', r) ∧ Q x x') ∨ (f'.run s = .error .repeatedKey ∧ ¬ H)

section

variable {H : Prop}

theorem Alike.bind {f f' : Loading α} {g g' : α → Loading β} {P : α → α → Prop}
    {Q : β → β → Prop} (hf : Alike H f f' P) (hg : ∀ x x', P x x' → Alike H (g x) (g' x') Q) :
    Alike H (f >>= g) (f' >>= g') Q := by
  intro s y r h
  obtain ⟨x, q, hx, hy⟩ := run_bind_eq_ok h
  rcases hf s x q hx with ⟨x', hx', hP⟩ | ⟨he, hH⟩
  · rw [run_bind_of_eq_ok hx']
    exact hg x x' hP q y r hy
  · exact .inr ⟨run_bind_of_eq_error he, hH⟩

theorem Alike.pure {x x' : α} {Q : α → α → Prop} (h : Q x x') :
    Alike H (Pure.pure x) (Pure.pure x') Q := by
  intro s y r hy
  cases hy
  exact .inl ⟨x', rfl, h⟩

theorem Alike.throw {e : Error} {f' : Loading α} {Q : α → α → Prop} :
    Alike H (throw e) f' Q := by
  intro s y r h
  cases h

theorem Alike.mono {f f' : Loading α} {P Q : α → α → Prop} (hf : Alike H f f' P)
    (h : ∀ x x', P x x' → Q x x') : Alike H f f' Q :=
  fun s x r hx => (hf s x r hx).imp_left fun ⟨x', hx', hP⟩ => ⟨x', hx', h x x' hP⟩

theorem Alike.repeatedKey {f : Loading α} {Q : α → α → Prop} (hH : ¬ H) :
    Alike H f (MonadExcept.throw .repeatedKey) Q :=
  fun _ _ _ _ => .inr ⟨rfl, hH⟩

theorem Alike.lift {f f' : Except Error α} {Q : α → α → Prop}
    (h : ∀ x, f = .ok x → ∃ x', f' = .ok x' ∧ Q x x') : Alike H (liftM f) (liftM f') Q := by
  intro s y r hy
  cases f with
  | error e => cases hy
  | ok x =>
    cases hy
    obtain ⟨x', rfl, hQ⟩ := h _ rfl
    exact .inl ⟨x', rfl, hQ⟩

end

def OnlyString (t : Text) : Prop := plain t = .ok (.string t)

def LeafOf (t : Text) (x : Value) : Prop := x.isLeaf = true ∧ ∀ s, x = .string s → s = t

theorem plain_leafOf {t : Text} {x : Value} (h : plain t = .ok x) : LeafOf t x := by
  unfold plain at h
  split at h
  · cases h
    exact ⟨rfl, by simp⟩
  · split at h
    · cases h
      exact ⟨rfl, by simp⟩
    · cases hn : Number.ofText? t with
      | error e => rw [hn] at h; cases h
      | ok n =>
        rw [hn] at h
        cases n with
        | none =>
          cases h
          exact ⟨rfl, fun s hs => (Value.string.inj hs).symm⟩
        | some n =>
          cases h
          exact ⟨rfl, by simp⟩

theorem underTag_leafOf {tag t : Text} {x : Value} (h : underTag tag t = .ok x) : LeafOf t x := by
  have hmap {γ : Type} {r : Except Error γ} {f : γ → Value} (hf : ∀ c, LeafOf t (f c))
      (h : r.map f = .ok x) : LeafOf t x := by
    cases r with
    | error e => cases h
    | ok c =>
      cases h
      exact hf c
  unfold underTag at h
  split at h
  · exact hmap (fun c => ⟨rfl, by simp⟩) h
  · split at h
    · cases hn : Number.fixedInteger? t with
      | error e => rw [hn] at h; cases h
      | ok n =>
        rw [hn] at h
        exact hmap (r := demanded n) (f := fun n => .number (.integer n))
          (fun c => ⟨rfl, by simp⟩) h
    · split at h
      · exact hmap (fun c => ⟨rfl, by simp⟩) h
      · split at h
        · split at h
          · cases h
            exact ⟨rfl, by simp⟩
          · cases h
        · cases h
          exact ⟨rfl, fun s hs => (Value.string.inj hs).symm⟩

theorem marked_edited {new : Text} {n : Nat} (mark : Option Text) {x x' : Value}
    (h : Value.Edited new n x x') : Value.Edited new n (marked mark x) (marked mark x') := by
  cases mark with
  | none => exact h
  | some tag => exact .tagged tag h

theorem map_marked_eq_ok {mark : Option Text} {r : Except Error Value} {x : Value}
    (h : r.map (marked mark) = .ok x) : ∃ y, r = .ok y ∧ x = marked mark y := by
  cases r with
  | error e => cases h
  | ok y => exact ⟨y, rfl, (Except.ok.inj h).symm⟩

theorem scalar_eq_ok {tagRead : Bool} {tag : Option Text} {text : Text} {style : ScalarStyle}
    {x : Value} (h : scalar tagRead tag text style = .ok x) :
    ∃ mark y, x = marked mark y ∧ LeafOf text y := by
  unfold scalar at h
  dsimp only at h
  generalize markOf tagRead tag = mark at h
  split at h
  · exact ⟨none, x, rfl, underTag_leafOf h⟩
  · obtain ⟨y, hy, rfl⟩ := map_marked_eq_ok h
    exact ⟨mark, y, rfl, plain_leafOf hy⟩
  · exact ⟨mark, .string text, (Except.ok.inj h).symm, rfl, fun s hs => (Value.string.inj hs).symm⟩

theorem scalar_untagged {tagRead : Bool} {text new : Text} {style : ScalarStyle} {x : Value}
    (h : scalar tagRead none text style = .ok x) (hnew : OnlyString new) :
    LeafOf text x ∧ scalar tagRead none new style = .ok (.string new) := by
  have hmark : markOf tagRead none = none := by cases tagRead <;> rfl
  have hscalar (t : Text) : scalar tagRead none t style =
      if style = .plain then plain t else .ok (.string t) := by
    unfold scalar
    rw [hmark]
    cases style <;> cases tagRead <;> simp [marked] <;> cases plain t <;> rfl
  rw [hscalar] at h ⊢
  split at h
  · next hstyle => exact ⟨plain_leafOf h, by rw [if_pos hstyle]; exact hnew⟩
  · next hstyle =>
    cases h
    exact ⟨⟨rfl, fun s hs => (Value.string.inj hs).symm⟩, if_neg hstyle⟩

/-- What `n` differences come to: `R` holds with more of them unless everything followed is kept. -/
def Excess {α : Type} (R : Nat → α → α → Prop) (n : Nat) (kept : Prop) (x x' : α) : Prop :=
  ∃ e, R (n + e) x x' ∧ (e = 0 ↔ kept)

section

variable {H : Prop} {old new : Text} {a b : Anchors} {n : Nat}

def ReadsAlike (H : Prop) (old new : Text) (a b : Anchors) (read read' : Node → Loading Value) :
    Prop :=
  ∀ i x y, Node.Edited old new i x y → (H → x.KeysAvoid old) →
    Alike H (read x) (read' y) (Excess (Value.Edited new) i (Node.Kept a b x))

theorem mapM_alike {xs ys : List Node} {f f' : Node → Loading Value}
    (hf : ReadsAlike H old new a b f f') (h : Summed (Node.Edited old new) n xs ys)
    (hkeys : H → ∀ x ∈ xs, x.KeysAvoid old) :
    Alike H (xs.mapM f) (ys.mapM f')
      (Excess (Summed (Value.Edited new)) n (∀ x ∈ xs, Node.Kept a b x)) := by
  induction h with
  | nil => exact .pure ⟨0, .nil, by simp⟩
  | @cons i j x y xs ys head tail ih =>
    rw [List.mapM_cons, List.mapM_cons]
    refine .bind (hf i x y head fun hH => hkeys hH x List.mem_cons_self) fun v v' hv => ?_
    refine .bind (ih fun hH x hx => hkeys hH x (List.mem_cons_of_mem _ hx)) fun vs vs' hvs =>
      .pure ?_
    obtain ⟨e, hedited, he⟩ := hv
    obtain ⟨d, hrest, hd⟩ := hvs
    refine ⟨e + d, ?_, ?_⟩
    · have hcons := Summed.cons hedited hrest
      rwa [show i + e + (j + d) = i + j + (e + d) by omega] at hcons
    · rw [List.forall_mem_cons, ← he, ← hd]
      omega

theorem Excess.key_eq {x y : Node} {u u' : Value} (h : Node.Edited old new n x y)
    (hu : Excess (Value.Edited new) n (Node.Kept a b x) u u')
    (hx : ∃ tag text style, x = .scalar tag text style ∧ text ≠ old) : u' = u := by
  obtain ⟨rfl, hkept⟩ := h.kept_of_key (a := a) (b := b) hx
  obtain ⟨e, hedited, he⟩ := hu
  obtain rfl := he.mpr hkept
  exact hedited.eq_iff.mpr rfl

theorem any_same_of_keys_eq {done done' : List (Value × Value)}
    (h : done'.map Prod.fst = done.map Prod.fst) (u : Value) :
    (done'.any fun e => e.1.same u) = done.any fun e => e.1.same u := by
  have hany := congrArg (List.any · (·.same u)) h
  rwa [List.any_map, List.any_map] at hany

theorem entries_alike {es fs : List (Node × Node)} {key key' value value' : Node → Loading Value}
    (hkey : ReadsAlike H old new a b key key') (hvalue : ReadsAlike H old new a b value value')
    (h : Summed (Paired (Node.Edited old new)) n es fs)
    (hkeys : H → (∀ p ∈ es, ∃ tag text style, p.1 = .scalar tag text style ∧ text ≠ old) ∧
      ∀ p ∈ es, p.2.KeysAvoid old)
    {m : Nat} {done done' : List (Value × Value)}
    (hdone : Summed (Paired (Value.Edited new)) m done done')
    (hsame : H → done'.map Prod.fst = done.map Prod.fst) :
    Alike H (entries key value done es) (entries key' value' done' fs)
      (Excess (Summed (Paired (Value.Edited new))) (m + n)
        (∀ p ∈ es, Node.Kept a b p.1 ∧ Node.Kept a b p.2)) := by
  induction h generalizing m done done' with
  | nil => exact .pure ⟨0, hdone.reverse, by simp⟩
  | @cons i j p q es fs head tail ih =>
    have hfirst (hH : H) := (hkeys hH).1 p List.mem_cons_self
    have hrest (hH : H) : (∀ p ∈ es, ∃ tag text style, p.1 = .scalar tag text style ∧ text ≠ old) ∧
        ∀ p ∈ es, p.2.KeysAvoid old :=
      ⟨(List.forall_mem_cons.mp (hkeys hH).1).2, (List.forall_mem_cons.mp (hkeys hH).2).2⟩
    have hsecond (hH : H) := (hkeys hH).2 p List.mem_cons_self
    cases head with
    | @mk i₁ i₂ k x k' x' fst snd =>
      have hleaf (hH : H) : k.KeysAvoid old := by
        obtain ⟨tag, text, style, rfl, -⟩ := hfirst hH
        exact .scalar tag text style
      unfold entries
      refine .bind (hkey _ _ _ fst hleaf) fun u u' hu => ?_
      have hu' (hH : H) : u' = u := hu.key_eq fst (hfirst hH)
      split
      · exact .throw
      next hnew =>
      split
      · next hagain =>
        refine .repeatedKey fun hH => hnew ?_
        rwa [hu' hH, any_same_of_keys_eq (hsame hH)] at hagain
      · refine .bind (hvalue _ _ _ snd hsecond) fun v v' hv => ?_
        have hsame' (hH : H) :
            ((u', v') :: done').map Prod.fst = ((u, v) :: done).map Prod.fst := by
          rw [List.map_cons, List.map_cons, hu' hH, hsame hH]
        obtain ⟨c, hu, hc⟩ := hu
        obtain ⟨d, hv, hd⟩ := hv
        refine (ih hrest (.cons (.mk hu hv) hdone) hsame').mono fun ws ws' hws => ?_
        obtain ⟨e, hedited, he⟩ := hws
        refine ⟨c + d + e, ?_, ?_⟩
        · rwa [show i₁ + c + (i₂ + d) + m + j + e = m + (i₁ + i₂ + j) + (c + d + e) by omega]
            at hedited
        · rw [List.forall_mem_cons, ← he, ← hc, ← hd]
          omega

theorem contentWith_alike (hnew : OnlyString new) (hne : old ≠ new)
    {inner inner' : Option (Bool → Node → Loading Value)}
    (hinner : Option.Rel (fun read read' => ∀ tagRead,
      ReadsAlike H old new a b (read tagRead) (read' tagRead)) inner inner') (tagRead : Bool) :
    ReadsAlike H old new a b (contentWith inner tagRead) (contentWith inner' tagRead) := by
  intro n x y h hkeys
  cases h with
  | kept tag text style =>
    refine .lift fun v hv => ⟨v, hv, ?_⟩
    obtain ⟨mark, u, rfl, hleaf⟩ := scalar_eq_ok hv
    exact ⟨0, marked_edited mark (.kept u hleaf.1), by simp⟩
  | scalar style =>
    refine .lift fun v hv => ?_
    obtain ⟨hleaf, hv'⟩ := scalar_untagged hv hnew
    have hv : v ≠ .string new := fun hv => hne (hleaf.2 new hv).symm
    exact ⟨_, hv', 0, .string v hleaf.1 hv, by simp⟩
  | «alias» k => exact .throw
  | sequence tag items =>
    cases hinner with
    | none => exact .throw
    | some hread =>
      have hitems (hH : H) := by
        cases hkeys hH with
        | sequence _ hitems => exact hitems
      refine .bind (mapM_alike (hread false) items hitems) fun vs vs' hvs => .pure ?_
      obtain ⟨e, hedited, he⟩ := hvs
      exact ⟨e, marked_edited _ (.sequence hedited), by rw [Node.kept_sequence, he]⟩
  | mapping tag entries =>
    cases hinner with
    | none => exact .throw
    | some hread =>
      have hentries (hH : H) := by
        cases hkeys hH with
        | mapping _ hkeys hvalues => exact And.intro hkeys hvalues
      refine .bind (entries_alike (hread _) (hread false) entries hentries .nil fun _ => rfl)
        fun vs vs' hvs => .pure ?_
      obtain ⟨e, hedited, he⟩ := hvs
      rw [Nat.zero_add] at hedited
      exact ⟨e, marked_edited _ (.mapping hedited), by rw [Node.kept_mapping, he]⟩

theorem follow_alias_eq_ok {a : Anchors} {tagRead : Bool} {k s r : Nat} {p : Bool × Node} :
    (follow a tagRead (.alias k)).run s = .ok (p, r) ↔
      ∃ x, a.node? k = some x ∧ p = (false, x) ∧ s = r + 1 := by
  cases s with
  | zero =>
    constructor
    · intro h
      cases h
    · rintro ⟨x, -, -, hs⟩
      omega
  | succ s =>
    cases hx : a.node? k with
    | none =>
      have hrun : (follow a tagRead (.alias k)).run (s + 1) = .error .unknownAnchor := by
        simp only [follow, hx]
        rfl
      simp [hrun]
    | some x =>
      have hrun : (follow a tagRead (.alias k)).run (s + 1) = .ok ((false, x), s) := by
        simp only [follow, hx]
        rfl
      simp [hrun, eq_comm]

theorem valueWith_alike (hnew : OnlyString new) (hne : old ≠ new)
    (hanchors : Anchors.Edited old new a b)
    (hkeys : H → ∀ k x, a.node? k = some x → x.KeysAvoid old)
    {inner inner' : Option (Bool → Node → Loading Value)}
    (hinner : Option.Rel (fun read read' => ∀ tagRead,
      ReadsAlike H old new a b (read tagRead) (read' tagRead)) inner inner') (tagRead : Bool) :
    ReadsAlike H old new a b (valueWith a inner tagRead) (valueWith b inner' tagRead) := by
  intro n x y h hx
  by_cases halias : ∃ k, x = .alias k
  · obtain ⟨k, rfl⟩ := halias
    cases h
    intro s v r hv
    obtain ⟨p, q, hp, hv⟩ := run_bind_eq_ok hv
    obtain ⟨z, hz, rfl, hs⟩ := follow_alias_eq_ok.mp hp
    obtain ⟨z', m, hz', hm⟩ := hanchors.node? hz
    have hp' : (follow b tagRead (.alias k)).run s = .ok ((false, z'), q) :=
      follow_alias_eq_ok.mpr ⟨z', hz', rfl, hs⟩
    unfold valueWith
    rw [run_bind_of_eq_ok hp']
    have hcontent := contentWith_alike hnew hne hinner false m z z' hm fun hH => hkeys hH k z hz
    refine hcontent.mono (fun v v' hv => ?_) q v r hv
    obtain ⟨e, hedited, he⟩ := hv
    refine ⟨m + e, by rwa [Nat.zero_add], ?_⟩
    rw [Node.kept_alias hz, hz, hz', Option.some.injEq, hm.eq_iff hne, ← he]
    omega
  · have hfollow (c : Anchors) (inner : Option (Bool → Node → Loading Value)) (z : Node)
        (hz : ¬ ∃ k, z = .alias k) : valueWith c inner tagRead z = contentWith inner tagRead z := by
      cases z with
      | «alias» k => exact absurd ⟨k, rfl⟩ hz
      | scalar tag text style => rfl
      | sequence tag items => rfl
      | mapping tag es => rfl
    have hy : ¬ ∃ k, y = .alias k := by
      rintro ⟨k, rfl⟩
      cases h
      exact halias ⟨k, rfl⟩
    rw [hfollow a inner x halias, hfollow b inner' y hy]
    exact contentWith_alike hnew hne hinner tagRead n x y h hx

theorem value_alike (hnew : OnlyString new) (hne : old ≠ new)
    (hanchors : Anchors.Edited old new a b)
    (hkeys : H → ∀ k x, a.node? k = some x → x.KeysAvoid old) (depth : Nat) (tagRead : Bool) :
    ReadsAlike H old new a b (value a depth tagRead) (value b depth tagRead) := by
  induction depth generalizing tagRead with
  | zero => exact valueWith_alike hnew hne hanchors hkeys .none tagRead
  | succ depth ih => exact valueWith_alike hnew hne hanchors hkeys (.some ih) tagRead

end

end Resolution
end VersionDrift.Yaml

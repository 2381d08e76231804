import VersionDrift.Yaml.Document
import VersionDrift.Proofs.Except
import VersionDrift.Proofs.Summed

/-!
# Documents whose tokens differ in scalars

Two token lists that differ in the texts of `n` scalars only: composition takes the
same path through both, and the nodes differ in the texts of `n` leaves. Every
reading passes on how many of the differences it has taken and how many are left.
-/

set_option autoImplicit false

namespace VersionDrift.Yaml

inductive Token.Edited (old new : Text) : Nat → Token → Token → Prop
  | kept (t : Token) : Token.Edited old new 0 t t
  | scalar (style : ScalarStyle) :
      Token.Edited old new 1 (.scalar old style) (.scalar new style)

theorem Token.Edited.eq_iff {old new : Text} (hne : old ≠ new) {n : Nat} {t u : Token}
    (h : Token.Edited old new n t u) : u = t ↔ n = 0 := by
  cases h with
  | kept => simp
  | scalar style => simpa using hne.symm

def Token.isProperty : Token → Bool
  | .anchor _ | .tag .. => true
  | _ => false

/-- No token that differs stands after an anchor or a tag. -/
def Token.Bare (ts us : List Token) : Prop :=
  ∀ (k : Nat) (t : Token), ts[k]? = some t → t.isProperty = true → us[k + 1]? = ts[k + 1]?

theorem Token.Bare.tail {ts us : List Token} {t u : Token} (h : Token.Bare (t :: ts) (u :: us)) :
    Token.Bare ts us :=
  fun k v hv hproperty => h (k + 1) v hv hproperty

/-- Nodes that differ in `n` scalars without tags, which have the text `old` in one and `new` in the
other. -/
inductive Node.Edited (old new : Text) : Nat → Node → Node → Prop
  | kept (tag : Option Text) (text : Text) (style : ScalarStyle) :
      Node.Edited old new 0 (.scalar tag text style) (.scalar tag text style)
  | scalar (style : ScalarStyle) :
      Node.Edited old new 1 (.scalar none old style) (.scalar none new style)
  | alias (k : Nat) : Node.Edited old new 0 (.alias k) (.alias k)
  | sequence {n : Nat} {xs ys : List Node} (tag : Option Text)
      (items : Summed (Node.Edited old new) n xs ys) :
      Node.Edited old new n (.sequence tag xs) (.sequence tag ys)
  | mapping {n : Nat} {xs ys : List (Node × Node)} (tag : Option Text)
      (entries : Summed (Paired (Node.Edited old new)) n xs ys) :
      Node.Edited old new n (.mapping tag xs) (.mapping tag ys)

inductive AnchoredNode.Edited (old new : Text) : Nat → AnchoredNode → AnchoredNode → Prop
  | mk {n : Nat} {x y : Node} (number begun : Nat) (node : Node.Edited old new n x y) :
      AnchoredNode.Edited old new n ⟨number, begun, x⟩ ⟨number, begun, y⟩

structure Anchors.Edited (old new : Text) (a b : Anchors) : Prop where
  names : b.names = a.names
  begun : b.begun = a.begun
  nodes : ∃ n, Summed (AnchoredNode.Edited old new) n a.nodes b.nodes

/-- Two readings with `n` differences ahead. -/
structure Composition.Edited (old new : Text) (n : Nat) (c d : Composition) : Prop where
  tokens : Summed (Token.Edited old new) n c.tokens d.tokens
  bare : Token.Bare c.tokens d.tokens
  handles : d.handles = c.handles
  anchors : Anchors.Edited old new c.anchors d.anchors
  size : d.size = c.size

namespace Composition

variable {old new : Text} {n : Nat} {c c' : Composition} {α β : Type}

/-- If the first reading succeeds where `n` differences are ahead, so does the second, and they are
shared out: some show in the results, the others are left. -/
def Agree (old new : Text) (n : Nat) (f f' : Reading α) (c c' : Composition)
    (Q : Nat → α → α → Prop) : Prop :=
  ∀ a d, f.run c = .ok (a, d) → ∃ a' d', f'.run c' = .ok (a', d') ∧
    ∃ i j, n = i + j ∧ Q i a a' ∧ Composition.Edited old new j d d'

def Same (i : Nat) (a a' : α) : Prop := i = 0 ∧ a' = a

theorem Agree.bind {f f' : Reading α} {g g' : α → Reading β} {P : Nat → α → α → Prop}
    {Q : Nat → β → β → Prop} (hf : Agree old new n f f' c c' P)
    (hg : ∀ i j a a' d d', n = i + j → P i a a' → Composition.Edited old new j d d' →
      Agree old new j (g a) (g' a') d d' fun k => Q (i + k)) :
    Agree old new n (f >>= g) (f' >>= g') c c' Q := by
  intro b e h
  obtain ⟨a, d, ha, hb⟩ := run_bind_eq_ok h
  obtain ⟨a', d', ha', i, j, hn, hP, hd⟩ := hf a d ha
  obtain ⟨b', e', hb', k, l, hj, hQ, he⟩ := hg i j a a' d d' hn hP hd b e hb
  refine ⟨b', e', ?_, i + k, l, by omega, hQ, he⟩
  rw [run_bind_of_eq_ok ha', hb']

theorem Agree.pure {Q : Nat → α → α → Prop} {a a' : α}
    (hc : Composition.Edited old new n c c') (h : Q 0 a a') :
    Agree old new n (pure a) (pure a') c c' Q := by
  intro b d hb
  cases hb
  exact ⟨a', c', rfl, 0, n, by omega, h, hc⟩

theorem Agree.throw {e : Error} {f' : Reading α} {Q : Nat → α → α → Prop} :
    Agree old new n (throw e) f' c c' Q := by
  intro a d h
  cases h

theorem Agree.cons {R : Nat → α → α → Prop} {i : Nat} {a a' : α} {f f' : Reading (List α)}
    (ha : R i a a') (hf : Agree old new n f f' c c' (Summed R)) :
    Agree old new n (f >>= fun as => Pure.pure (a :: as)) (f' >>= fun as => Pure.pure (a' :: as))
      c c' fun k => Summed R (i + k) :=
  hf.bind fun _ _ _ _ _ _ _ has hd => .pure hd (.cons ha has)

theorem Agree.entry {i k : Nat} {key key' value value' : Node}
    {f f' : Reading (List (Node × Node))} (hkey : Node.Edited old new i key key')
    (hvalue : Node.Edited old new k value value')
    (hf : Agree old new n f f' c c' (Summed (Paired (Node.Edited old new)))) :
    Agree old new n (f >>= fun es => Pure.pure ((key, value) :: es))
      (f' >>= fun es => Pure.pure ((key', value') :: es)) c c'
      fun l => Summed (Paired (Node.Edited old new)) (i + (k + l)) := by
  simp only [← Nat.add_assoc]
  exact .cons (.mk hkey hvalue) hf

theorem Agree.same_bind {f : Reading α} {g g' : α → Reading β} {Q : Nat → β → β → Prop}
    (hf : Agree old new n f f c c' Same)
    (hg : ∀ a d d', Composition.Edited old new n d d' → Agree old new n (g a) (g' a) d d' Q) :
    Agree old new n (f >>= g) (f >>= g') c c' Q := by
  refine hf.bind fun i j a a' d d' hn hsame hd => ?_
  obtain ⟨rfl, rfl⟩ := hsame
  obtain rfl : n = j := by omega
  simpa using hg _ d d' hd

theorem Agree.peek_bind {g g' : Option Token → Reading β} {Q : Nat → β → β → Prop}
    (h : Agree old new n (g c.tokens.head?) (g' c'.tokens.head?) c c' Q) :
    Agree old new n (peek >>= g) (peek >>= g') c c' Q := h

theorem Agree.get_bind {g g' : Composition → Reading β} {Q : Nat → β → β → Prop}
    (h : Agree old new n (g c) (g' c') c c' Q) :
    Agree old new n (get >>= g) (get >>= g') c c' Q := h

theorem Agree.count_bind {g g' : Unit → Reading β} {Q : Nat → β → β → Prop}
    (hc : Composition.Edited old new n c c')
    (hg : ∀ d d', Composition.Edited old new n d d' → Agree old new n (g ()) (g' ()) d d' Q) :
    Agree old new n (count >>= g) (count >>= g') c c' Q :=
  hg _ _ ⟨hc.tokens, hc.bare, hc.handles, hc.anchors, by simp only [hc.size]⟩

theorem Agree.drop_bind {g g' : Unit → Reading β} {Q : Nat → β → β → Prop} {t : Token}
    {ts ts' : List Token} (hc : Composition.Edited old new n c c') (ht : c.tokens = t :: ts)
    (ht' : c'.tokens = t :: ts') (hts : Summed (Token.Edited old new) n ts ts')
    (hg : ∀ d d', Composition.Edited old new n d d' → Agree old new n (g ()) (g' ()) d d' Q) :
    Agree old new n (drop >>= g) (drop >>= g') c c' Q := by
  have hbare := hc.bare
  rw [ht, ht'] at hbare
  exact hg _ _ ⟨by simpa only [ht, ht', List.tail_cons] using hts,
    by simpa only [ht, ht', List.tail_cons] using hbare.tail, hc.handles, hc.anchors, hc.size⟩

theorem Edited.tokens_cases (hc : Composition.Edited old new n c c') :
    (c.tokens = [] ∧ c'.tokens = []) ∨
    (∃ t ts ts', c.tokens = t :: ts ∧ c'.tokens = t :: ts' ∧
      Summed (Token.Edited old new) n ts ts') ∨
    (∃ m style ts ts', n = 1 + m ∧ c.tokens = .scalar old style :: ts ∧
      c'.tokens = .scalar new style :: ts' ∧ Summed (Token.Edited old new) m ts ts') := by
  have htokens := hc.tokens
  generalize c.tokens = u, c'.tokens = u' at htokens ⊢
  cases htokens with
  | nil => exact .inl ⟨rfl, rfl⟩
  | @cons i j a b as bs head tail =>
    cases head with
    | kept => exact .inr (.inl ⟨_, as, bs, rfl, rfl, by rwa [Nat.zero_add]⟩)
    | scalar style => exact .inr (.inr ⟨j, style, as, bs, rfl, rfl, rfl, tail⟩)

theorem Agree.emptyScalar (hc : Composition.Edited old new n c c') :
    Agree old new n emptyScalar emptyScalar c c' (Node.Edited old new) :=
  .count_bind hc fun _ _ hd => .pure hd (.kept none [] .plain)

def NoScalars (ends : List Token) : Prop := ∀ text style, Token.scalar text style ∉ ends

@[simp] theorem noScalars_nil : NoScalars [] := fun _ _ => List.not_mem_nil

@[simp] theorem noScalars_cons {t : Token} {ends : List Token} :
    NoScalars (t :: ends) ↔ (∀ text style, Token.scalar text style ≠ t) ∧ NoScalars ends := by
  simp [NoScalars, forall_and]

theorem Agree.resolve (handle suffix : Text) (hc : Composition.Edited old new n c c') :
    Agree old new n (resolve handle suffix) (resolve handle suffix) c c' Same := by
  unfold Composition.resolve
  split
  · exact .pure hc ⟨rfl, rfl⟩
  · apply Agree.get_bind
    rw [hc.handles]
    split
    · exact .pure hc ⟨rfl, rfl⟩
    · exact .throw

theorem Agree.peek_cases {g g' : Option Token → Reading β} {Q : Nat → β → β → Prop}
    (hc : Composition.Edited old new n c c')
    (hscalar : ∀ text style, g (some (.scalar text style)) = g none)
    (hscalar' : ∀ text style, g' (some (.scalar text style)) = g' none)
    (hnone : Agree old new n (g none) (g' none) c c' Q)
    (hsome : Agree old new n (g none) (g' none) c c' Q → ∀ t ts ts', c.tokens = t :: ts →
      c'.tokens = t :: ts' → Summed (Token.Edited old new) n ts ts' →
      Agree old new n (g (some t)) (g' (some t)) c c' Q) :
    Agree old new n (peek >>= g) (peek >>= g') c c' Q := by
  apply Agree.peek_bind
  rcases hc.tokens_cases with ⟨ht, ht'⟩ | ⟨t, ts, ts', ht, ht', hts⟩ |
    ⟨m, style, ts, ts', -, ht, ht', -⟩
  · rw [ht, ht']
    exact hnone
  · have hsome := hsome hnone t ts ts' ht ht' hts
    rwa [ht, ht']
  · rw [ht, ht', List.head?_cons, List.head?_cons, hscalar, hscalar']
    exact hnone

theorem Agree.properties (hc : Composition.Edited old new n c c') :
    Agree old new n properties properties c c' Same := by
  unfold Composition.properties
  extract_lets anchor? tag?
  have hanchor (d d' : Composition) (hd : Composition.Edited old new n d d') :
      Agree old new n anchor? anchor? d d' Same := by
    refine .peek_cases hd (fun _ _ => rfl) (fun _ _ => rfl) (.pure hd ⟨rfl, rfl⟩)
      fun hrest t ts ts' ht ht' hts => ?_
    split
    · exact .drop_bind hd ht ht' hts fun _ _ he => .pure he ⟨rfl, rfl⟩
    · exact hrest
  have htag (d d' : Composition) (hd : Composition.Edited old new n d d') :
      Agree old new n tag? tag? d d' Same := by
    refine .peek_cases hd (fun _ _ => rfl) (fun _ _ => rfl) (.pure hd ⟨rfl, rfl⟩)
      fun hrest t ts ts' ht ht' hts => ?_
    split
    · refine .drop_bind hd ht ht' hts fun d d' he => ?_
      exact .same_bind (.resolve _ _ he) fun _ _ _ he => .pure he ⟨rfl, rfl⟩
    · exact hrest
  refine .same_bind (hanchor c c' hc) fun anchor d d' hd => ?_
  cases anchor with
  | some name => exact .same_bind (htag d d' hd) fun _ _ _ he => .pure he ⟨rfl, rfl⟩
  | none =>
    refine .same_bind (htag d d' hd) fun tag e e' he => ?_
    split
    · exact .same_bind (hanchor e e' he) fun _ _ _ hf => .pure hf ⟨rfl, rfl⟩
    · exact .pure he ⟨rfl, rfl⟩

theorem tokens_of_resolve {handle suffix tag : Text} {d : Composition}
    (h : (resolve handle suffix).run c = .ok (tag, d)) : d = c := by
  unfold resolve at h
  split at h
  · cases h
    rfl
  · obtain ⟨_, _, hget, h⟩ := run_bind_eq_ok h
    cases hget
    split at h
    · cases h
      rfl
    · cases h

theorem tokens_of_properties {p : Option Text × Option Text} {d : Composition}
    (h : properties.run c = .ok (p, d)) (hp : p.2 ≠ none) : ∃ k t, c.tokens[k]? = some t ∧
      t.isProperty = true ∧ d.tokens = c.tokens.drop (k + 1) := by
  unfold properties at h
  extract_lets anchor? tag? at h
  have hanchor {e f : Composition} {a : Option Text} (h : anchor?.run e = .ok (a, f)) :
      (a = none ∧ f = e) ∨
        ∃ name, a = some name ∧ e.tokens[0]? = some (.anchor name) ∧
          f.tokens = e.tokens.drop 1 := by
    obtain ⟨t, _, ht, h⟩ := run_bind_eq_ok h
    cases ht
    split at h
    · next name hhead =>
      cases h
      exact .inr ⟨name, rfl, by rw [← List.head?_eq_getElem?, hhead], List.drop_one.symm⟩
    · cases h
      exact .inl ⟨rfl, rfl⟩
  have htag {e f : Composition} {a : Option Text} (h : tag?.run e = .ok (a, f)) :
      (a = none ∧ f = e) ∨
        ∃ handle suffix, e.tokens[0]? = some (.tag handle suffix) ∧ f.tokens = e.tokens.drop 1 := by
    obtain ⟨t, _, ht, h⟩ := run_bind_eq_ok h
    cases ht
    split at h
    · next handle suffix hhead =>
      obtain ⟨_, _, hdrop, h⟩ := run_bind_eq_ok h
      cases hdrop
      obtain ⟨stem, g, hresolve, h⟩ := run_bind_eq_ok h
      cases h
      obtain rfl := tokens_of_resolve hresolve
      exact .inr ⟨handle, suffix, by rw [← List.head?_eq_getElem?, hhead], List.drop_one.symm⟩
    · cases h
      exact .inl ⟨rfl, rfl⟩
  obtain ⟨anchor, e, he, hrest⟩ := run_bind_eq_ok h
  clear h
  cases anchor with
  | some name =>
    obtain ⟨tag, f, hf, hlast⟩ := run_bind_eq_ok hrest
    cases hlast
    rcases hanchor he with ⟨hnone, -⟩ | ⟨name', -, -, hdrop⟩
    · cases hnone
    rcases htag hf with ⟨hnone, -⟩ | ⟨handle, suffix, hhead, hdrop'⟩
    · exact absurd hnone hp
    rw [hdrop, List.getElem?_drop] at hhead
    exact ⟨1, _, hhead, rfl, by rw [hdrop', hdrop, List.drop_drop]⟩
  | none =>
    obtain ⟨tag, f, hf, hlast⟩ := run_bind_eq_ok hrest
    clear hrest
    rcases hanchor he with ⟨-, rfl⟩ | ⟨name, hsome, -⟩
    · rcases htag hf with ⟨rfl, -⟩ | ⟨handle, suffix, hhead, hdrop⟩
      · cases hlast
        exact absurd rfl hp
      · dsimp only at hlast
        split at hlast
        · obtain ⟨anchor, g, hg, hend⟩ := run_bind_eq_ok hlast
          cases hend
          rcases hanchor hg with ⟨-, rfl⟩ | ⟨name, -, hhead', hdrop'⟩
          · exact ⟨0, _, hhead, rfl, hdrop⟩
          · rw [hdrop, List.getElem?_drop] at hhead'
            exact ⟨1, _, hhead', rfl, by rw [hdrop', hdrop, List.drop_drop]⟩
        · cases hlast
          exact ⟨0, _, hhead, rfl, hdrop⟩
    · cases hsome

/-- The properties of a node, and then the rest. After a tag both readings see the same token. -/
theorem Agree.properties_bind {g g' : Option Text × Option Text → Reading β}
    {Q : Nat → β → β → Prop} (hc : Composition.Edited old new n c c')
    (hg : ∀ p d d', Composition.Edited old new n d d' →
      (p.2 ≠ none → d'.tokens.head? = d.tokens.head?) → Agree old new n (g p) (g' p) d d' Q) :
    Agree old new n (Composition.properties >>= g) (Composition.properties >>= g') c c' Q := by
  intro b e h
  obtain ⟨p, d, hd, hb⟩ := run_bind_eq_ok h
  obtain ⟨p', d', hd', i, j, hn, ⟨rfl, rfl⟩, hedited⟩ := Agree.properties hc p d hd
  obtain rfl : n = j := by omega
  rw [run_bind_of_eq_ok hd']
  refine hg p' d d' hedited (fun hp => ?_) b e hb
  obtain ⟨k, t, hk, hproperty, hdrop⟩ := tokens_of_properties hd hp
  obtain ⟨k', t', hk', -, hdrop'⟩ := tokens_of_properties hd' hp
  have hlength := hc.tokens.length_eq
  have hlength' := hedited.tokens.length_eq
  have hlt := (List.getElem?_eq_some_iff.mp hk).1
  have hlt' := (List.getElem?_eq_some_iff.mp hk').1
  rw [hdrop, hdrop', List.length_drop, List.length_drop] at hlength'
  obtain rfl : k' = k := by omega
  rw [hdrop, hdrop', List.head?_drop, List.head?_drop]
  exact hc.bare k' t hk hproperty

/-- All readings of one bound agree where their tokens do. -/
structure Agrees (old new : Text) (fuel : Nat) : Prop where
  node : ∀ (n : Nat) (c c' : Composition) (block indentless : Bool),
    Composition.Edited old new n c c' → Agree old new n (Composition.node fuel block indentless)
      (Composition.node fuel block indentless) c c' (Node.Edited old new)
  blockItems : ∀ (n : Nat) (c c' : Composition), Composition.Edited old new n c c' →
    Agree old new n (Composition.blockItems fuel) (Composition.blockItems fuel) c c'
      (Summed (Node.Edited old new))
  indentlessItems : ∀ (n : Nat) (c c' : Composition), Composition.Edited old new n c c' →
    Agree old new n (Composition.indentlessItems fuel) (Composition.indentlessItems fuel) c c'
      (Summed (Node.Edited old new))
  blockEntries : ∀ (n : Nat) (c c' : Composition), Composition.Edited old new n c c' →
    Agree old new n (Composition.blockEntries fuel) (Composition.blockEntries fuel) c c'
      (Summed (Paired (Node.Edited old new)))
  blockPart : ∀ (n : Nat) (c c' : Composition), Composition.Edited old new n c c' →
    Agree old new n (Composition.blockPart fuel) (Composition.blockPart fuel) c c'
      (Node.Edited old new)
  flowItems : ∀ (n : Nat) (c c' : Composition) (first : Bool), Composition.Edited old new n c c' →
    Agree old new n (Composition.flowItems fuel first) (Composition.flowItems fuel first) c c'
      (Summed (Node.Edited old new))
  flowPair : ∀ (n : Nat) (c c' : Composition), Composition.Edited old new n c c' →
    Agree old new n (Composition.flowPair fuel) (Composition.flowPair fuel) c c'
      (Paired (Node.Edited old new))
  flowEntries : ∀ (n : Nat) (c c' : Composition) (first : Bool),
    Composition.Edited old new n c c' →
    Agree old new n (Composition.flowEntries fuel first) (Composition.flowEntries fuel first) c c'
      (Summed (Paired (Node.Edited old new)))

theorem run_leavesEmpty_bind (ends : List Token) (g : Bool → Reading β) (c : Composition) :
    (leavesEmpty ends >>= g).run c = (g (c.tokens.head?.any (· ∈ ends))).run c := by
  have hleaves : (leavesEmpty ends).run c = .ok (c.tokens.head?.any (· ∈ ends), c) := by
    cases c with
    | mk tokens handles anchors size => cases tokens <;> rfl
  rw [StateT.run_bind, hleaves]
  rfl

theorem Agree.leavesEmpty_bind {ends : List Token} {g g' : Bool → Reading β}
    {Q : Nat → β → β → Prop} (hends : NoScalars ends) (hc : Composition.Edited old new n c c')
    (htrue : ∀ t ts ts', c.tokens = t :: ts → c'.tokens = t :: ts' →
      Summed (Token.Edited old new) n ts ts' → Agree old new n (g true) (g' true) c c' Q)
    (hfalse : Agree old new n (g false) (g' false) c c' Q) :
    Agree old new n (Composition.leavesEmpty ends >>= g) (Composition.leavesEmpty ends >>= g')
      c c' Q := by
  unfold Agree
  rw [run_leavesEmpty_bind, run_leavesEmpty_bind]
  rcases hc.tokens_cases with ⟨ht, ht'⟩ | ⟨t, ts, ts', ht, ht', hts⟩ |
    ⟨m, style, ts, ts', -, ht, ht', -⟩
  · rw [ht, ht']
    exact hfalse
  · have htrue := htrue t ts ts' ht ht' hts
    rw [ht, ht']
    by_cases hmem : t ∈ ends
    · simp only [List.head?_cons, Option.any_some, hmem, decide_true]
      exact htrue
    · simp only [List.head?_cons, Option.any_some, hmem, decide_false]
      exact hfalse
  · rw [ht, ht']
    simp only [List.head?_cons, Option.any_some, hends _ _, decide_false]
    exact hfalse

theorem Agree.part_bind {ends : List Token} {x : Reading Node} {k k' : Node → Reading β}
    {Q : Nat → β → β → Prop} (hends : NoScalars ends) (hc : Composition.Edited old new n c c')
    (hx : ∀ d d', Composition.Edited old new n d d' →
      Agree old new n x x d d' (Node.Edited old new))
    (hk : ∀ i j a a' d d', Node.Edited old new i a a' →
      Composition.Edited old new j d d' → Agree old new j (k a) (k' a') d d' fun l => Q (i + l)) :
    Agree old new n
      (Composition.leavesEmpty ends >>= fun b =>
        if b = true then Composition.emptyScalar >>= k else x >>= k)
      (Composition.leavesEmpty ends >>= fun b =>
        if b = true then Composition.emptyScalar >>= k' else x >>= k') c c' Q :=
  .leavesEmpty_bind hends hc
    (fun _ _ _ _ _ _ => .bind (.emptyScalar hc) fun i j a a' e e' _ => hk i j a a' e e')
    (.bind (hx c c' hc) fun i j a a' e e' _ => hk i j a a' e e')

theorem Agree.value_bind {x x' : Reading β} {k k' : Node → Reading β} {Q : Nat → β → β → Prop}
    (hc : Composition.Edited old new n c c')
    (hx : ∀ d d', Composition.Edited old new n d d' → Agree old new n x x' d d' Q)
    (hk : ∀ i j a a' d d', Node.Edited old new i a a' →
      Composition.Edited old new j d d' → Agree old new j (k a) (k' a') d d' fun l => Q (i + l)) :
    Agree old new n
      (Composition.peek >>= fun t => match t with
        | some .value => Composition.drop >>= fun _ => x
        | _ => Composition.emptyScalar >>= k)
      (Composition.peek >>= fun t => match t with
        | some .value => Composition.drop >>= fun _ => x'
        | _ => Composition.emptyScalar >>= k') c c' Q := by
  refine .peek_cases hc (fun _ _ => rfl) (fun _ _ => rfl) ?_ fun hrest t ts ts' ht ht' hts => ?_
  · exact .bind (.emptyScalar hc) fun i j a a' d d' _ => hk i j a a' d d'
  · split
    · exact .drop_bind hc ht ht' hts hx
    · exact hrest

theorem Agrees.blockPart_succ {fuel : Nat} (ih : Agrees old new fuel)
    (hc : Composition.Edited old new n c c') :
    Agree old new n (Composition.blockPart (fuel + 1)) (Composition.blockPart (fuel + 1)) c c'
      (Node.Edited old new) := by
  unfold Composition.blockPart
  exact .leavesEmpty_bind (by simp) hc (fun _ _ _ _ _ _ => .emptyScalar hc)
    (ih.node n c c' true true hc)

theorem Agrees.blockItems_succ {fuel : Nat} (ih : Agrees old new fuel)
    (hc : Composition.Edited old new n c c') :
    Agree old new n (Composition.blockItems (fuel + 1)) (Composition.blockItems (fuel + 1)) c c'
      (Summed (Node.Edited old new)) := by
  unfold Composition.blockItems
  refine .peek_cases hc (fun _ _ => rfl) (fun _ _ => rfl) .throw fun hrest t ts ts' ht ht' hts => ?_
  split
  · refine .drop_bind hc ht ht' hts fun d d' hd => ?_
    refine .part_bind (by simp) hd (fun e e' => ih.node n e e' true false)
      fun i j item item' e e' hitem he => ?_
    exact .cons hitem (ih.blockItems j e e' he)
  · refine .drop_bind hc ht ht' hts fun d d' hd => ?_
    exact .count_bind hd fun _ _ he => .pure he .nil
  · exact .throw

theorem Agrees.indentlessItems_succ {fuel : Nat} (ih : Agrees old new fuel)
    (hc : Composition.Edited old new n c c') :
    Agree old new n (Composition.indentlessItems (fuel + 1))
      (Composition.indentlessItems (fuel + 1)) c c' (Summed (Node.Edited old new)) := by
  unfold Composition.indentlessItems
  refine .peek_cases hc (fun _ _ => rfl) (fun _ _ => rfl) ?_ fun hrest t ts ts' ht ht' hts => ?_
  · exact .count_bind hc fun _ _ hd => .pure hd .nil
  split
  · refine .drop_bind hc ht ht' hts fun d d' hd => ?_
    refine .part_bind (by simp) hd (fun e e' => ih.node n e e' true false)
      fun i j item item' e e' hitem he => ?_
    exact .cons hitem (ih.indentlessItems j e e' he)
  · exact hrest

theorem Agrees.blockEntries_succ {fuel : Nat} (ih : Agrees old new fuel)
    (hc : Composition.Edited old new n c c') :
    Agree old new n (Composition.blockEntries (fuel + 1)) (Composition.blockEntries (fuel + 1)) c c'
      (Summed (Paired (Node.Edited old new))) := by
  unfold Composition.blockEntries
  refine .peek_cases hc (fun _ _ => rfl) (fun _ _ => rfl) .throw fun hrest t ts ts' ht ht' hts => ?_
  split
  · refine .drop_bind hc ht ht' hts fun d d' hd => ?_
    refine .bind (ih.blockPart n d d' hd) fun i j key key' e e' _ hkey he => ?_
    refine .value_bind he (fun f f' hf => ?_) fun k l value value' f f' hvalue hf =>
      .entry hkey hvalue (ih.blockEntries l f f' hf)
    exact .bind (ih.blockPart j f f' hf) fun k l value value' g g' _ hvalue hg =>
      .entry hkey hvalue (ih.blockEntries l g g' hg)
  · refine .drop_bind hc ht ht' hts fun d d' hd => ?_
    exact .count_bind hd fun _ _ he => .pure he .nil
  · exact .throw

theorem Agree.flowSeparator (first : Bool) (hc : Composition.Edited old new n c c') :
    Agree old new n (flowSeparator first) (flowSeparator first) c c' Same := by
  unfold Composition.flowSeparator
  split
  · refine .peek_cases hc (fun _ _ => by simp) (fun _ _ => by simp) .throw
      fun hrest t ts ts' ht ht' hts => ?_
    split
    · exact .drop_bind hc ht ht' hts fun _ _ hd => .pure hd ⟨rfl, rfl⟩
    · exact .throw
  · exact .pure hc ⟨rfl, rfl⟩

theorem Agrees.flowValue_bind {fuel : Nat} (ih : Agrees old new fuel) {ends : List Token}
    {k k' : Node → Reading β} {Q : Nat → β → β → Prop} (hends : NoScalars ends)
    (hc : Composition.Edited old new n c c')
    (hk : ∀ i j a a' d d', Node.Edited old new i a a' →
      Composition.Edited old new j d d' → Agree old new j (k a) (k' a') d d' fun l => Q (i + l)) :
    Agree old new n
      (Composition.peek >>= fun t => match t with
        | some .value => Composition.drop >>= fun _ => Composition.leavesEmpty ends >>= fun b =>
          if b = true then Composition.emptyScalar >>= k
          else Composition.node fuel false false >>= k
        | _ => Composition.emptyScalar >>= k)
      (Composition.peek >>= fun t => match t with
        | some .value => Composition.drop >>= fun _ => Composition.leavesEmpty ends >>= fun b =>
          if b = true then Composition.emptyScalar >>= k'
          else Composition.node fuel false false >>= k'
        | _ => Composition.emptyScalar >>= k') c c' Q :=
  .value_bind hc (fun _ _ hd => .part_bind hends hd (fun e e' => ih.node _ e e' false false) hk) hk

theorem Agrees.flowPair_succ {fuel : Nat} (ih : Agrees old new fuel)
    (hc : Composition.Edited old new n c c') :
    Agree old new n (Composition.flowPair (fuel + 1)) (Composition.flowPair (fuel + 1)) c c'
      (Paired (Node.Edited old new)) := by
  unfold Composition.flowPair
  refine .leavesEmpty_bind (by simp) hc (fun t ts ts' ht ht' hts => ?_) ?_
  · refine .drop_bind hc ht ht' hts fun d d' hd => ?_
    refine .bind (.emptyScalar hd) fun i j key key' e e' _ hkey he => ?_
    exact ih.flowValue_bind (by simp) he fun k l value value' f f' hvalue hf =>
      .pure hf (.mk hkey hvalue)
  · refine .bind (ih.node n c c' false false hc) fun i j key key' e e' _ hkey he => ?_
    exact ih.flowValue_bind (by simp) he fun k l value value' f f' hvalue hf =>
      .pure hf (.mk hkey hvalue)

theorem Agree.flow_bind {close : Token} {first : Bool} {g : Option Token → Reading (List α)}
    {R : Nat → α → α → Prop} (hclose : ∀ text style, close ≠ .scalar text style)
    (hc : Composition.Edited old new n c c')
    (hg : ∀ d d', Composition.Edited old new n d d' →
      Agree old new n (Composition.peek >>= g) (Composition.peek >>= g) d d' (Summed R)) :
    Agree old new n
      (Composition.peek >>= fun t =>
        if t = some close then Composition.drop >>= fun _ => count >>= fun _ => Pure.pure []
        else Composition.flowSeparator first >>= fun _ => Composition.peek >>= g)
      (Composition.peek >>= fun t =>
        if t = some close then Composition.drop >>= fun _ => count >>= fun _ => Pure.pure []
        else Composition.flowSeparator first >>= fun _ => Composition.peek >>= g)
      c c' (Summed R) := by
  have hscalar (text : Text) (style : ScalarStyle) : some (Token.scalar text style) ≠ some close :=
    fun h => hclose text style (Option.some.inj h).symm
  refine .peek_cases hc (fun text style => by simp [hscalar]) (fun text style => by simp [hscalar])
    ?_ fun hrest t ts ts' ht ht' hts => ?_
  · rw [if_neg (by simp)]
    exact .same_bind (.flowSeparator first hc) fun _ d d' hd => hg d d' hd
  · by_cases hend : some t = some close
    · rw [if_pos hend]
      refine .drop_bind hc ht ht' hts fun d d' hd => ?_
      exact .count_bind hd fun _ _ he => .pure he .nil
    · rw [if_neg hend]
      rwa [if_neg (by simp)] at hrest

theorem Agrees.flowItems_succ {fuel : Nat} (ih : Agrees old new fuel) (first : Bool)
    (hc : Composition.Edited old new n c c') :
    Agree old new n (Composition.flowItems (fuel + 1) first)
      (Composition.flowItems (fuel + 1) first) c c' (Summed (Node.Edited old new)) := by
  unfold Composition.flowItems
  refine .flow_bind (by simp) hc fun d d' hd => ?_
  refine .peek_cases hd (fun _ _ => rfl) (fun _ _ => rfl) ?_ fun hrest t ts ts' ht ht' hts => ?_
  · refine .bind (ih.node n d d' false false hd) fun i j item item' e e' _ hitem he => ?_
    exact .cons hitem (ih.flowItems j e e' false he)
  split
  · refine .drop_bind hd ht ht' hts fun e e' he => ?_
    exact .count_bind he fun _ _ hf => .pure hf .nil
  · refine .drop_bind hd ht ht' hts fun e e' he => .count_bind he fun e e' he => ?_
    refine .bind (ih.flowPair n e e' he) fun i j entry entry' f f' _ hentry hf => ?_
    refine .count_bind hf fun f f' hf => ?_
    exact .cons (.mapping none (.single hentry)) (ih.flowItems j f f' false hf)
  · exact hrest

theorem Agrees.flowEntries_succ {fuel : Nat} (ih : Agrees old new fuel) (first : Bool)
    (hc : Composition.Edited old new n c c') :
    Agree old new n (Composition.flowEntries (fuel + 1) first)
      (Composition.flowEntries (fuel + 1) first) c c' (Summed (Paired (Node.Edited old new))) := by
  unfold Composition.flowEntries
  refine .flow_bind (by simp) hc fun d d' hd => ?_
  refine .peek_cases hd (fun _ _ => rfl) (fun _ _ => rfl) ?_ fun hrest t ts ts' ht ht' hts => ?_
  · refine .bind (ih.node n d d' false false hd) fun i j key key' e e' _ hkey he => ?_
    exact .bind (.emptyScalar he) fun k l value value' f f' _ hvalue hf =>
      .entry hkey hvalue (ih.flowEntries l f f' false hf)
  split
  · refine .drop_bind hd ht ht' hts fun e e' he => ?_
    exact .count_bind he fun _ _ hf => .pure hf .nil
  · refine .drop_bind hd ht ht' hts fun d d' hd => ?_
    refine .part_bind (by simp) hd (fun e e' => ih.node n e e' false false)
      fun i j key key' e e' hkey he => ?_
    exact ih.flowValue_bind (by simp) he fun k l value value' f f' hvalue hf =>
      .entry hkey hvalue (ih.flowEntries l f f' false hf)
  · exact hrest

theorem Agree.modify_bind {g g' : Unit → Reading β} {Q : Nat → β → β → Prop}
    {f f' : Composition → Composition} (hf : Composition.Edited old new n (f c) (f' c'))
    (hg : ∀ d d', Composition.Edited old new n d d' → Agree old new n (g ()) (g' ()) d d' Q) :
    Agree old new n (modify f >>= g) (modify f' >>= g') c c' Q := hg _ _ hf

theorem Agree.begin_bind (anchor : Option Text) {g g' : Unit → Reading β}
    {Q : Nat → β → β → Prop} (hc : Composition.Edited old new n c c')
    (hg : ∀ d d', Composition.Edited old new n d d' → d.tokens = c.tokens →
      d'.tokens = c'.tokens → Agree old new n (g ()) (g' ()) d d' Q) :
    Agree old new n (declare anchor >>= fun _ => count >>= g)
      (declare anchor >>= fun _ => count >>= g') c c' Q := by
  have hsize : c'.size + 1 = c.size + 1 := by rw [hc.size]
  cases anchor with
  | none => exact hg _ _ ⟨hc.tokens, hc.bare, hc.handles, hc.anchors, hsize⟩ rfl rfl
  | some name =>
    refine hg _ _ ⟨hc.tokens, hc.bare, hc.handles, ⟨?_, ?_, hc.anchors.nodes⟩, hsize⟩ rfl rfl
    · simp only [Anchors.declare, hc.anchors.names]
    · simp only [Anchors.declare, hc.anchors.begun]

theorem Agree.record (anchor : Option Text) {before before' : Anchors} {i : Nat} {x x' : Node}
    (hbefore : Anchors.Edited old new before before') (hx : Node.Edited old new i x x')
    (hc : Composition.Edited old new n c c') :
    Agree old new n (record anchor before x) (record anchor before' x') c c'
      fun k => Node.Edited old new (i + k) := by
  unfold Composition.record
  split
  · obtain ⟨m, hnodes⟩ := hc.anchors.nodes
    have hbound : AnchoredNode.Edited old new i ⟨before.names.length, before.begun, x⟩
        ⟨before'.names.length, before'.begun, x'⟩ := by
      rw [hbefore.names, hbefore.begun]
      exact .mk _ _ hx
    have hanchors : Anchors.Edited old new (before.bind x c.anchors) (before'.bind x' c'.anchors) :=
      ⟨hc.anchors.names, hc.anchors.begun, _, .cons hbound hnodes⟩
    exact .modify_bind ⟨hc.tokens, hc.bare, hc.handles, hanchors, hc.size⟩
      fun _ _ hd => .pure hd hx
  · exact .pure hc hx

theorem Agree.bareNode (anchor tag : Option Text) (hc : Composition.Edited old new n c c') :
    Agree old new n (bareNode anchor tag) (bareNode anchor tag) c c' (Node.Edited old new) := by
  unfold Composition.bareNode
  split
  · exact .pure hc (.kept tag [] .plain)
  · exact .throw

theorem Agree.drop_scalar {m : Nat} {style : ScalarStyle}
    {k k' : Node → Reading Node} {ts ts' : List Token} (hc : Composition.Edited old new n c c')
    (hn : n = 1 + m) (ht : c.tokens = .scalar old style :: ts)
    (ht' : c'.tokens = .scalar new style :: ts') (hts : Summed (Token.Edited old new) m ts ts')
    (hk : ∀ i j a a' d d', Node.Edited old new i a a' → Composition.Edited old new j d d' →
      Agree old new j (k a) (k' a') d d' fun l => Node.Edited old new (i + l)) :
    Agree old new n
      (drop >>= fun _ => Pure.pure (Node.scalar none old style) >>= k)
      (drop >>= fun _ => Pure.pure (Node.scalar none new style) >>= k') c c'
      (Node.Edited old new) := by
  have hbare := hc.bare
  rw [ht, ht'] at hbare
  have hd : Composition.Edited old new m { c with tokens := ts } { c' with tokens := ts' } :=
    ⟨hts, hbare.tail, hc.handles, hc.anchors, hc.size⟩
  have hrest := hk 1 m (.scalar none old style) (.scalar none new style) _ _ (.scalar style) hd
  intro a d h
  have hrun : (k (.scalar none old style)).run { c with tokens := c.tokens.tail } = .ok (a, d) := h
  rw [ht] at hrun
  obtain ⟨a', d', hrun', i, j, hm, hQ, hj⟩ := hrest a d hrun
  refine ⟨a', d', ?_, 1 + i, j, by omega, hQ, hj⟩
  change (k' (.scalar none new style)).run { c' with tokens := c'.tokens.tail } = .ok (a', d')
  rw [ht']
  exact hrun'

theorem Agrees.node_succ {fuel : Nat} (hne : old ≠ new) (ih : Agrees old new fuel)
    (block indentless : Bool) (hc : Composition.Edited old new n c c') :
    Agree old new n (Composition.node (fuel + 1) block indentless)
      (Composition.node (fuel + 1) block indentless) c c' (Node.Edited old new) := by
  unfold Composition.node
  refine .peek_cases hc (fun _ _ => rfl) (fun _ _ => rfl) ?_ fun hrest t ts ts' ht ht' hts => ?_
  · refine .properties_bind hc fun ⟨anchor, tag⟩ d d' hd htag => ?_
    refine .get_bind (.begin_bind anchor hd fun f f' hf hfd hfd' => ?_)
    have hlast (i j : Nat) (x x' : Node) (g g' : Composition) (hx : Node.Edited old new i x x')
        (hg : Composition.Edited old new j g g') :=
      Agree.record anchor hd.anchors hx hg
    have hbare := Agree.bind (.bareNode anchor tag hf)
      fun i j x x' g g' _ => hlast i j x x' g g'
    apply Agree.peek_bind
    rcases hf.tokens_cases with ⟨ht, ht'⟩ | ⟨t, ts, ts', ht, ht', hts⟩ |
      ⟨m, style, ts, ts', hn, ht, ht', hts⟩
    · rw [ht, ht']
      exact hbare
    · rw [ht, ht', List.head?_cons, List.head?_cons]
      split
      · refine .drop_bind hf ht ht' hts fun g g' hg => ?_
        exact .bind (.pure hg (.kept tag _ _)) fun i j x x' h h' _ => hlast i j x x' h h'
      · refine .drop_bind hf ht ht' hts fun g g' hg => ?_
        refine .bind (ih.flowItems n g g' true hg) fun i j xs xs' h h' _ hxs hh => ?_
        exact hlast i j _ _ h h' (.sequence tag hxs) hh
      · refine .drop_bind hf ht ht' hts fun g g' hg => ?_
        refine .bind (ih.flowEntries n g g' true hg) fun i j xs xs' h h' _ hxs hh => ?_
        exact hlast i j _ _ h h' (.mapping tag hxs) hh
      · split
        · refine .bind (ih.indentlessItems n f f' hf) fun i j xs xs' h h' _ hxs hh => ?_
          exact hlast i j _ _ h h' (.sequence tag hxs) hh
        · exact hbare
      · split
        · refine .drop_bind hf ht ht' hts fun g g' hg => ?_
          refine .bind (ih.blockItems n g g' hg) fun i j xs xs' h h' _ hxs hh => ?_
          exact hlast i j _ _ h h' (.sequence tag hxs) hh
        · exact hbare
      · split
        · refine .drop_bind hf ht ht' hts fun g g' hg => ?_
          refine .bind (ih.blockEntries n g g' hg) fun i j xs xs' h h' _ hxs hh => ?_
          exact hlast i j _ _ h h' (.mapping tag hxs) hh
        · exact hbare
      · exact hbare
    · cases tag with
      | none =>
        rw [ht, ht']
        exact .drop_scalar hf hn ht ht' hts hlast
      | some tag =>
        have hhead := htag (by simp)
        rw [← hfd, ← hfd', ht, ht', List.head?_cons, List.head?_cons] at hhead
        exact absurd (Token.scalar.inj (Option.some.inj hhead)).1.symm hne
  · split
    · refine .drop_bind hc ht ht' hts fun d d' hd => .count_bind hd fun e e' he => .get_bind ?_
      simp only [Anchors.number?, he.anchors.names]
      split
      · exact .pure he (.alias _)
      · exact .throw
    · exact hrest

theorem agrees {old new : Text} (hne : old ≠ new) (fuel : Nat) : Agrees old new fuel := by
  induction fuel with
  | zero =>
    exact ⟨fun _ _ _ _ _ _ => .throw, fun _ _ _ _ => .throw, fun _ _ _ _ => .throw,
      fun _ _ _ _ => .throw, fun _ _ _ _ => .throw, fun _ _ _ _ _ => .throw,
      fun _ _ _ _ => .throw, fun _ _ _ _ _ => .throw⟩
  | succ fuel ih =>
    exact ⟨fun _ _ _ block indentless hc => ih.node_succ hne block indentless hc,
      fun _ _ _ hc => ih.blockItems_succ hc, fun _ _ _ hc => ih.indentlessItems_succ hc,
      fun _ _ _ hc => ih.blockEntries_succ hc, fun _ _ _ hc => ih.blockPart_succ hc,
      fun _ _ _ first hc => ih.flowItems_succ first hc, fun _ _ _ hc => ih.flowPair_succ hc,
      fun _ _ _ first hc => ih.flowEntries_succ first hc⟩

end Composition

namespace Document

variable {old new : Text}

structure Edited (old new : Text) (n : Nat) (d d' : Document) : Prop where
  root : Node.Edited old new n d.root d'.root
  anchors : Anchors.Edited old new d.anchors d'.anchors
  size : d'.size = d.size

theorem ends_edited {n : Nat} {ts ts' : List Token}
    (h : Summed (Token.Edited old new) n ts ts') (hends : ts.all (· = .documentEnd) = true) :
    n = 0 ∧ ts' = ts := by
  induction h with
  | nil => exact ⟨rfl, rfl⟩
  | cons head tail ih =>
    simp only [List.all_cons, Bool.and_eq_true, decide_eq_true_eq] at hends
    obtain ⟨rfl, htail⟩ := hends
    cases head
    obtain ⟨rfl, rfl⟩ := ih htail
    exact ⟨rfl, rfl⟩

theorem atBoundary_eq {n : Nat} {ts ts' : List Token}
    (h : Summed (Token.Edited old new) n ts ts') : atBoundary ts' = atBoundary ts := by
  cases h with
  | nil => rfl
  | cons head tail =>
    cases head with
    | kept => rfl
    | scalar => rfl

theorem compose_edited {handles : List (Text × Text)} {explicit : Bool} {n : Nat}
    {ts ts' : List Token} {d : Document} (hne : old ≠ new)
    (hts : Summed (Token.Edited old new) n ts ts') (hbare : Token.Bare ts ts')
    (h : compose handles explicit ts = .ok d) :
    ∃ d', compose handles explicit ts' = .ok d' ∧ Edited old new n d d' := by
  have hc : Composition.Edited old new n ⟨ts, handles, .empty, 0⟩ ⟨ts', handles, .empty, 0⟩ :=
    ⟨hts, hbare, rfl, ⟨rfl, rfl, 0, .nil⟩, rfl⟩
  unfold compose at h ⊢
  rw [atBoundary_eq hts, ← hts.length_eq]
  dsimp only at h ⊢
  generalize hcontent : (if (explicit && atBoundary ts) = true then Composition.emptyScalar
    else Composition.node (4 * ts.length + 8) true false) = content at h ⊢
  have hagree : Composition.Agree old new n content content ⟨ts, handles, .empty, 0⟩
      ⟨ts', handles, .empty, 0⟩ (Node.Edited old new) := by
    rw [← hcontent]
    split
    · exact .emptyScalar hc
    · exact (Composition.agrees hne _).node n _ _ true false hc
  cases hrun : content.run ⟨ts, handles, .empty, 0⟩ with
  | error e => rw [hrun] at h; cases h
  | ok p =>
    obtain ⟨node, c⟩ := p
    obtain ⟨node', c', hrun', i, j, hn, hnode, hleft⟩ := hagree node c hrun
    rw [hrun] at h
    rw [hrun']
    simp only [ok_bind] at h ⊢
    split at h
    · next hends =>
      obtain rfl := Except.ok.inj h
      obtain ⟨rfl, hsame⟩ := ends_edited hleft.tokens hends
      obtain rfl : n = i := by omega
      rw [hsame, if_pos hends]
      exact ⟨_, rfl, hnode, hleft.anchors, hleft.size⟩
    · cases h

theorem directives_of_not {t : Token} (h : isDirective t = false) (version : Bool)
    (handles : List (Text × Text)) (ts : List Token) :
    directives version handles (t :: ts) = .ok (handles ++ defaultHandles, t :: ts) := by
  cases t <;> first
    | rfl
    | cases h

theorem directives_edited {n : Nat} {ts ts' us : List Token} {version : Bool}
    {handles hs : List (Text × Text)} (hts : Summed (Token.Edited old new) n ts ts')
    (hbare : Token.Bare ts ts') (h : directives version handles ts = .ok (hs, us)) :
    ∃ us', directives version handles ts' = .ok (hs, us') ∧
      Summed (Token.Edited old new) n us us' ∧ Token.Bare us us' := by
  induction ts generalizing n ts' version handles with
  | nil =>
    cases hts
    cases h
    exact ⟨[], rfl, .nil, hbare⟩
  | cons t ts ih =>
    cases hts with
    | @cons i j a b as bs head tail =>
      cases head with
      | scalar style =>
        cases h
        exact ⟨_, rfl, .cons (.scalar style) tail, hbare⟩
      | kept =>
        have hother (hne : isDirective t = false) :
            ∃ us', directives version handles (t :: bs) = .ok (hs, us') ∧
              Summed (Token.Edited old new) (0 + j) us us' ∧ Token.Bare us us' := by
          rw [directives_of_not hne] at h ⊢
          cases h
          exact ⟨_, rfl, .cons (.kept t) tail, hbare⟩
        cases t with
        | versionDirective major minor =>
          unfold directives at h ⊢
          rw [Nat.zero_add]
          split at h
          · cases h
          · next hversion =>
            rw [if_neg hversion]
            split at h
            · next hnumber =>
              rw [if_pos hnumber]
              exact ih tail hbare.tail h
            · cases h
        | tagDirective handle stem =>
          unfold directives at h ⊢
          rw [Nat.zero_add]
          split at h
          · cases h
          · next hhandle =>
            rw [if_neg hhandle]
            exact ih tail hbare.tail h
        | _ => exact hother rfl

/-- Tokens that differ in `n` scalars from those of a document make a document that differs in `n`
leaves. -/
theorem ofTokens_edited {n : Nat} {ts ts' : List Token} {d : Document} (hne : old ≠ new)
    (hts : Summed (Token.Edited old new) n ts ts') (hbare : Token.Bare ts ts')
    (h : ofTokens ts = .ok d) : ∃ d', ofTokens ts' = .ok d' ∧ Edited old new n d d' := by
  cases hts with
  | nil =>
    cases h
    exact ⟨_, rfl, .kept none [] .plain, ⟨rfl, rfl, 0, .nil⟩, rfl⟩
  | @cons i j t t' us us' head tail =>
    have hts := Summed.cons head tail
    cases head with
    | scalar style => exact compose_edited hne hts hbare h
    | kept =>
      rw [Nat.zero_add] at hts ⊢
      simp only [ofTokens] at h ⊢
      split at h
      · next hstart =>
        rw [if_pos hstart]
        cases hd : directives false [] (t :: us) with
        | error e => rw [hd] at h; cases h
        | ok p =>
          obtain ⟨hs, vs⟩ := p
          obtain ⟨vs', hd', hvs, hbare'⟩ := directives_edited hts hbare hd
          rw [hd] at h
          rw [hd']
          simp only [ok_bind] at h ⊢
          cases hvs with
          | nil => cases h
          | @cons k l u u' vs vs' hu hvs =>
            cases hu with
            | scalar style => cases h
            | kept =>
              split at h
              · next heq =>
                cases heq
                rw [Nat.zero_add]
                exact compose_edited hne hvs hbare'.tail h
              · cases h
      · next hstart =>
        rw [if_neg hstart]
        exact compose_edited hne hts hbare h

end Document
end VersionDrift.Yaml

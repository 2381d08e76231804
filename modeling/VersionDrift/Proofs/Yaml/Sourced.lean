import VersionDrift.Yaml.Document
import VersionDrift.Proofs.Except

/-!
# Where the leaves of a document come from

Composition makes up no text: every scalar of the tree, and of the nodes with anchors, is a
token, unless it is left out. A collection takes its end token along, so the tokens of a
document that is no scalar do not end with one.
-/

set_option autoImplicit false

namespace VersionDrift.Yaml

/-- Every scalar in the node is one of the tokens, unless it is empty. -/
inductive Node.From (ts : List Token) : Node → Prop
  | token {text : Text} {style : ScalarStyle} (tag : Option Text)
      (mem : Token.scalar text style ∈ ts) : Node.From ts (.scalar tag text style)
  | empty (tag : Option Text) : Node.From ts (.scalar tag [] .plain)
  | alias (k : Nat) : Node.From ts (.alias k)
  | sequence {xs : List Node} (tag : Option Text) (items : ∀ x ∈ xs, Node.From ts x) :
      Node.From ts (.sequence tag xs)
  | mapping {es : List (Node × Node)} (tag : Option Text) (keys : ∀ p ∈ es, Node.From ts p.1)
      (values : ∀ p ∈ es, Node.From ts p.2) : Node.From ts (.mapping tag es)

theorem Node.From.mono {ts us : List Token} {x : Node} (h : x.From us) (hus : us <:+ ts) :
    x.From ts := by
  induction h with
  | token tag mem => exact .token tag (hus.mem mem)
  | empty tag => exact .empty tag
  | «alias» k => exact .alias k
  | sequence tag items ih => exact .sequence tag ih
  | mapping tag keys values ihKeys ihValues => exact .mapping tag ihKeys ihValues

def Token.isScalar : Token → Bool
  | .scalar .. => true
  | _ => false

def Node.isScalar : Node → Bool
  | .scalar .. => true
  | _ => false

/-- The tokens left are the last of `ts`, and the nodes with anchors are read from `ts`. -/
structure Composition.Over (ts : List Token) (c : Composition) : Prop where
  tokens : c.tokens <:+ ts
  nodes : ∀ a ∈ c.anchors.nodes, a.node.From ts

namespace Composition

variable {ts us : List Token} {c : Composition} {α β : Type} {t : Token}

def Ended (ts : List Token) (c : Composition) : Prop :=
  ∃ t, t.isScalar = false ∧ t :: c.tokens <:+ ts

/-- If the reading succeeds it stays over `ts`, and `Q` holds of its result and where it ends. -/
def Gives (ts : List Token) (f : Reading α) (c : Composition) (Q : α → Composition → Prop) : Prop :=
  ∀ a d, f.run c = .ok (a, d) → Over ts d ∧ Q a d

namespace Gives

variable {P : α → Composition → Prop} {Q : β → Composition → Prop}

theorem bind {f : Reading α} {g : α → Reading β} (hf : Gives ts f c P)
    (hg : ∀ a d, Over ts d → P a d → Gives ts (g a) d Q) : Gives ts (f >>= g) c Q := by
  intro b e h
  obtain ⟨a, d, ha, hb⟩ := run_bind_eq_ok h
  obtain ⟨hd, hP⟩ := hf a d ha
  exact hg a d hd hP b e hb

theorem mono {f : Reading α} {P' : α → Composition → Prop} (hf : Gives ts f c P)
    (h : ∀ a d, P a d → P' a d) : Gives ts f c P' :=
  fun a d hd => (hf a d hd).imp_right (h a d)

theorem pure {a : α} (hc : Over ts c) (h : P a c) : Gives ts (Pure.pure a) c P := by
  intro b d hb
  cases hb
  exact ⟨hc, h⟩

theorem throw {e : Error} : Gives ts (throw e) c P := by
  intro a d h
  cases h

theorem ite {p : Prop} [Decidable p] {f g : Reading α} (hf : Gives ts f c P)
    (hg : Gives ts g c P) : Gives ts (if p then f else g) c P := by
  split
  · exact hf
  · exact hg

theorem peek_bind {g : Option Token → Reading β} (h : Gives ts (g c.tokens.head?) c Q) :
    Gives ts (peek >>= g) c Q := h

theorem get_bind {g : Composition → Reading β} (h : Gives ts (g c) c Q) :
    Gives ts (get >>= g) c Q := h

theorem peek_cases {g : Option Token → Reading β} (hnone : Gives ts (g none) c Q)
    (hsome : Gives ts (g none) c Q → ∀ t us, c.tokens = t :: us → Gives ts (g (some t)) c Q) :
    Gives ts (peek >>= g) c Q := by
  apply peek_bind
  cases ht : c.tokens with
  | nil => exact hnone
  | cons t us => exact hsome hnone t us ht

theorem count_bind {g : Unit → Reading β} (hc : Over ts c)
    (hg : ∀ d, Over ts d → d.tokens = c.tokens → Gives ts (g ()) d Q) :
    Gives ts (count >>= g) c Q :=
  hg _ ⟨hc.tokens, hc.nodes⟩ rfl

theorem drop_bind {g : Unit → Reading β} (hc : Over ts c) (ht : c.tokens = t :: us)
    (hg : ∀ d, Over ts d → t :: d.tokens <:+ ts → Gives ts (g ()) d Q) :
    Gives ts (drop >>= g) c Q := by
  have hsuffix : t :: c.tokens.tail <:+ ts := by
    rw [ht, List.tail_cons, ← ht]
    exact hc.tokens
  exact hg { c with tokens := c.tokens.tail } ⟨(List.suffix_cons t _).trans hsuffix, hc.nodes⟩
    hsuffix

theorem leavesEmpty_bind {ends : List Token} {g : Bool → Reading β}
    (htrue : ∀ t us, c.tokens = t :: us → Gives ts (g true) c Q)
    (hfalse : Gives ts (g false) c Q) : Gives ts (leavesEmpty ends >>= g) c Q := by
  have hrun : (leavesEmpty ends >>= g).run c = (g (c.tokens.head?.any (· ∈ ends))).run c := by
    cases c with
    | mk tokens handles anchors size => cases tokens <;> rfl
  intro b d h
  rw [hrun] at h
  cases ht : c.tokens with
  | nil =>
    rw [ht] at h
    exact hfalse b d h
  | cons t us =>
    rw [ht, List.head?_cons, Option.any_some] at h
    cases hmem : decide (t ∈ ends) with
    | true =>
      rw [hmem] at h
      exact htrue t us ht b d h
    | false =>
      rw [hmem] at h
      exact hfalse b d h

end Gives

variable {Q : β → Composition → Prop}

theorem gives_emptyScalar (hc : Over ts c) : Gives ts emptyScalar c fun x _ => x.From ts :=
  .count_bind hc fun _ hd _ => .pure hd (.empty none)

theorem gives_resolve (handle suffix : Text) (hc : Over ts c) :
    Gives ts (resolve handle suffix) c fun _ _ => True := by
  unfold resolve
  split
  · exact .pure hc trivial
  · apply Gives.get_bind
    split
    · exact .pure hc trivial
    · exact .throw

theorem gives_properties (hc : Over ts c) : Gives ts properties c fun _ _ => True := by
  unfold properties
  extract_lets anchor? tag?
  have hanchor (d : Composition) (hd : Over ts d) : Gives ts anchor? d fun _ _ => True := by
    refine .peek_cases (.pure hd trivial) fun hrest t us ht => ?_
    split
    · exact .drop_bind hd ht fun _ he _ => .pure he trivial
    · exact .pure hd trivial
  have htag (d : Composition) (hd : Over ts d) : Gives ts tag? d fun _ _ => True := by
    refine .peek_cases (.pure hd trivial) fun hrest t us ht => ?_
    split
    · refine .drop_bind hd ht fun d he _ => ?_
      exact .bind (gives_resolve _ _ he) fun _ _ he _ => .pure he trivial
    · exact .pure hd trivial
  refine .bind (hanchor c hc) fun anchor d hd _ => ?_
  cases anchor with
  | some name => exact .bind (htag d hd) fun _ _ he _ => .pure he trivial
  | none =>
    refine .bind (htag d hd) fun tag e he _ => ?_
    split
    · exact .bind (hanchor e he) fun _ _ hf _ => .pure hf trivial
    · exact .pure he trivial

theorem gives_flowSeparator (first : Bool) (hc : Over ts c) :
    Gives ts (flowSeparator first) c fun _ _ => True := by
  unfold flowSeparator
  split
  · refine .peek_cases .throw fun _ t us ht => ?_
    exact .ite (.drop_bind hc ht fun _ hd _ => .pure hd trivial) .throw
  · exact .pure hc trivial

/-- What the readings of one bound give: nodes from the tokens, and after a collection with an end
token that token stands last. -/
structure Sourced (ts : List Token) (fuel : Nat) : Prop where
  node : ∀ (c : Composition) (block indentless : Bool), Over ts c →
    Gives ts (Composition.node fuel block indentless) c fun x d =>
      x.From ts ∧ (indentless = false → x.isScalar = true ∨ Ended ts d)
  blockItems : ∀ c : Composition, Over ts c → Gives ts (Composition.blockItems fuel) c fun xs d =>
    (∀ x ∈ xs, x.From ts) ∧ Ended ts d
  indentlessItems : ∀ c : Composition, Over ts c →
    Gives ts (Composition.indentlessItems fuel) c fun xs _ => ∀ x ∈ xs, x.From ts
  blockEntries : ∀ c : Composition, Over ts c →
    Gives ts (Composition.blockEntries fuel) c fun es d =>
      (∀ p ∈ es, p.1.From ts ∧ p.2.From ts) ∧ Ended ts d
  blockPart : ∀ c : Composition, Over ts c →
    Gives ts (Composition.blockPart fuel) c fun x _ => x.From ts
  flowItems : ∀ (c : Composition) (first : Bool), Over ts c →
    Gives ts (Composition.flowItems fuel first) c fun xs d =>
      (∀ x ∈ xs, x.From ts) ∧ Ended ts d
  flowPair : ∀ c : Composition, Over ts c →
    Gives ts (Composition.flowPair fuel) c fun p _ => p.1.From ts ∧ p.2.From ts
  flowEntries : ∀ (c : Composition) (first : Bool), Over ts c →
    Gives ts (Composition.flowEntries fuel first) c fun es d =>
      (∀ p ∈ es, p.1.From ts ∧ p.2.From ts) ∧ Ended ts d

theorem gives_part_bind {ends : List Token} {x : Reading Node} {k : Node → Reading β}
    (hc : Over ts c) (hx : Gives ts x c fun x _ => x.From ts)
    (hk : ∀ x d, Over ts d → x.From ts → Gives ts (k x) d Q) :
    Gives ts (leavesEmpty ends >>= fun b =>
      if b = true then emptyScalar >>= k else x >>= k) c Q :=
  .leavesEmpty_bind (fun _ _ _ => .bind (gives_emptyScalar hc) hk) (.bind hx hk)

theorem gives_value_bind {x : Reading β} {k : Node → Reading β} (hc : Over ts c)
    (hx : ∀ d, Over ts d → Gives ts x d Q)
    (hk : ∀ x d, Over ts d → x.From ts → Gives ts (k x) d Q) :
    Gives ts (peek >>= fun t => match t with
      | some .value => drop >>= fun _ => x
      | _ => emptyScalar >>= k) c Q := by
  have hempty := Gives.bind (gives_emptyScalar hc) hk
  refine .peek_cases hempty fun hrest t us ht => ?_
  split
  · exact .drop_bind hc ht fun d hd _ => hx d hd
  · exact hempty

theorem Ended.of_tokens_eq {d : Composition} (h : Ended ts c) (hd : d.tokens = c.tokens) :
    Ended ts d := by
  obtain ⟨t, ht, hsuffix⟩ := h
  exact ⟨t, ht, hd ▸ hsuffix⟩

theorem gives_end {P : α → Prop} {close : Token} (hc : Over ts c) (ht : c.tokens = t :: us)
    (hclose : some t = some close) (hscalar : close.isScalar = false) :
    Gives ts (drop >>= fun _ => count >>= fun _ => Pure.pure []) c
      fun (xs : List α) d => (∀ x ∈ xs, P x) ∧ Ended ts d := by
  obtain rfl := Option.some.inj hclose
  refine .drop_bind hc ht fun d hd hsuffix => .count_bind hd fun e he heq => .pure he ?_
  exact ⟨by simp, .of_tokens_eq ⟨t, hscalar, hsuffix⟩ heq⟩

theorem gives_cons {P : α → Prop} {x : α} {f : Reading (List α)} (hx : P x)
    (hf : Gives ts f c fun xs d => (∀ x ∈ xs, P x) ∧ Ended ts d) :
    Gives ts (f >>= fun xs => Pure.pure (x :: xs)) c
      fun xs d => (∀ x ∈ xs, P x) ∧ Ended ts d :=
  .bind hf fun _ _ hd hxs => .pure hd ⟨List.forall_mem_cons.mpr ⟨hx, hxs.1⟩, hxs.2⟩

namespace Sourced

variable {fuel : Nat}

theorem item (h : Sourced ts fuel) (block indentless : Bool) (hc : Over ts c) :
    Gives ts (Composition.node fuel block indentless) c fun x _ => x.From ts :=
  (h.node c block indentless hc).mono fun _ _ hx => hx.1

theorem blockPart_succ (ih : Sourced ts fuel) (hc : Over ts c) :
    Gives ts (Composition.blockPart (fuel + 1)) c fun x _ => x.From ts := by
  unfold Composition.blockPart
  exact .leavesEmpty_bind (fun _ _ _ => gives_emptyScalar hc) (ih.item true true hc)

theorem blockItems_succ (ih : Sourced ts fuel) (hc : Over ts c) :
    Gives ts (Composition.blockItems (fuel + 1)) c fun xs d =>
      (∀ x ∈ xs, x.From ts) ∧ Ended ts d := by
  unfold Composition.blockItems
  refine .peek_cases .throw fun hrest t us ht => ?_
  split
  · refine .drop_bind hc ht fun d hd _ => ?_
    exact gives_part_bind hd (ih.item true false hd) fun x e he hx =>
      gives_cons hx (ih.blockItems e he)
  · next hclose => exact gives_end hc ht hclose rfl
  · exact .throw

theorem indentlessItems_succ (ih : Sourced ts fuel) (hc : Over ts c) :
    Gives ts (Composition.indentlessItems (fuel + 1)) c fun xs _ => ∀ x ∈ xs, x.From ts := by
  have hend : Gives ts (count >>= fun _ => Pure.pure ([] : List Node)) c
      fun xs _ => ∀ x ∈ xs, x.From ts := .count_bind hc fun _ hd _ => .pure hd (by simp)
  unfold Composition.indentlessItems
  refine .peek_cases hend fun hrest t us ht => ?_
  split
  · refine .drop_bind hc ht fun d hd _ => ?_
    refine gives_part_bind hd (ih.item true false hd) fun x e he hx => ?_
    exact .bind (ih.indentlessItems e he) fun xs f hf hxs =>
      .pure hf (List.forall_mem_cons.mpr ⟨hx, hxs⟩)
  · exact hend

theorem blockEntries_succ (ih : Sourced ts fuel) (hc : Over ts c) :
    Gives ts (Composition.blockEntries (fuel + 1)) c fun es d =>
      (∀ p ∈ es, p.1.From ts ∧ p.2.From ts) ∧ Ended ts d := by
  unfold Composition.blockEntries
  refine .peek_cases .throw fun hrest t us ht => ?_
  split
  · refine .drop_bind hc ht fun d hd _ => ?_
    refine .bind (ih.blockPart d hd) fun key e he hkey => ?_
    have hlast (value : Node) (f : Composition) (hf : Over ts f) (hvalue : value.From ts) :=
      gives_cons (x := (key, value)) ⟨hkey, hvalue⟩ (ih.blockEntries f hf)
    exact gives_value_bind he (fun f hf => .bind (ih.blockPart f hf) hlast) hlast
  · next hclose => exact gives_end hc ht hclose rfl
  · exact .throw

theorem flowValue_bind (ih : Sourced ts fuel) {ends : List Token} {k : Node → Reading β}
    (hc : Over ts c) (hk : ∀ x d, Over ts d → x.From ts → Gives ts (k x) d Q) :
    Gives ts (peek >>= fun t => match t with
      | some .value => drop >>= fun _ => leavesEmpty ends >>= fun b =>
        if b = true then emptyScalar >>= k else Composition.node fuel false false >>= k
      | _ => emptyScalar >>= k) c Q :=
  gives_value_bind hc (fun _ hd => gives_part_bind hd (ih.item false false hd) hk) hk

theorem flowPair_succ (ih : Sourced ts fuel) (hc : Over ts c) :
    Gives ts (Composition.flowPair (fuel + 1)) c fun p _ => p.1.From ts ∧ p.2.From ts := by
  unfold Composition.flowPair
  refine .leavesEmpty_bind (fun t us ht => ?_) ?_
  · refine .drop_bind hc ht fun d hd _ => ?_
    exact .bind (gives_emptyScalar hd) fun key e he hkey =>
      ih.flowValue_bind he fun value f hf hvalue => .pure hf ⟨hkey, hvalue⟩
  · exact .bind (ih.item false false hc) fun key d hd hkey =>
      ih.flowValue_bind hd fun value e he hvalue => .pure he ⟨hkey, hvalue⟩

theorem flow_bind {close : Token} {first : Bool} {P : α → Prop}
    {g : Option Token → Reading (List α)} (hscalar : close.isScalar = false) (hc : Over ts c)
    (hg : ∀ d, Over ts d →
      Gives ts (peek >>= g) d fun xs d => (∀ x ∈ xs, P x) ∧ Ended ts d) :
    Gives ts
      (peek >>= fun t =>
        if t = some close then drop >>= fun _ => count >>= fun _ => Pure.pure []
        else flowSeparator first >>= fun _ => peek >>= g)
      c fun xs d => (∀ x ∈ xs, P x) ∧ Ended ts d := by
  have hmore := Gives.bind (gives_flowSeparator first hc) fun _ d hd _ => hg d hd
  refine .peek_cases ?_ fun _ t us ht => ?_
  · rwa [if_neg (by simp)]
  · split
    · next hclose => exact gives_end hc ht hclose hscalar
    · exact hmore

theorem flowItems_succ (ih : Sourced ts fuel) (first : Bool) (hc : Over ts c) :
    Gives ts (Composition.flowItems (fuel + 1) first) c fun xs d =>
      (∀ x ∈ xs, x.From ts) ∧ Ended ts d := by
  unfold Composition.flowItems
  refine flow_bind rfl hc fun d hd => ?_
  have hitem := Gives.bind (ih.item false false hd) fun x e he hx =>
    gives_cons hx (ih.flowItems e false he)
  refine .peek_cases hitem fun hrest t us ht => ?_
  split
  · next hclose => exact gives_end hd ht hclose rfl
  · refine .drop_bind hd ht fun e he _ => .count_bind he fun f hf _ => ?_
    refine .bind (ih.flowPair f hf) fun entry g hg hentry => .count_bind hg fun h hh _ => ?_
    refine gives_cons (.mapping none ?_ ?_) (ih.flowItems h false hh)
    · simpa using hentry.1
    · simpa using hentry.2
  · exact hitem

theorem flowEntries_succ (ih : Sourced ts fuel) (first : Bool) (hc : Over ts c) :
    Gives ts (Composition.flowEntries (fuel + 1) first) c fun es d =>
      (∀ p ∈ es, p.1.From ts ∧ p.2.From ts) ∧ Ended ts d := by
  unfold Composition.flowEntries
  refine flow_bind rfl hc fun d hd => ?_
  have hlast (key value : Node) (e : Composition) (he : Over ts e) (hkey : key.From ts)
      (hvalue : value.From ts) :=
    gives_cons (x := (key, value)) ⟨hkey, hvalue⟩ (ih.flowEntries e false he)
  have halone := Gives.bind (ih.item false false hd) fun key e he hkey =>
    .bind (gives_emptyScalar he) fun value f hf hvalue => hlast key value f hf hkey hvalue
  refine .peek_cases halone fun hrest t us ht => ?_
  split
  · next hclose => exact gives_end hd ht hclose rfl
  · refine .drop_bind hd ht fun e he _ => ?_
    exact gives_part_bind he (ih.item false false he) fun key f hf hkey =>
      ih.flowValue_bind hf fun value g hg hvalue => hlast key value g hg hkey hvalue
  · exact halone

theorem gives_record (anchor : Option Text) (before : Anchors) {x : Node} (hc : Over ts c)
    (hx : x.From ts) :
    Gives ts (record anchor before x) c fun y d => y = x ∧ d.tokens = c.tokens := by
  unfold record
  split
  · intro y d h
    cases h
    exact ⟨⟨hc.tokens, List.forall_mem_cons.mpr ⟨hx, hc.nodes⟩⟩, rfl, rfl⟩
  · exact .pure hc ⟨rfl, rfl⟩

theorem declare_bind (anchor : Option Text) {g : Unit → Reading β} (hc : Over ts c)
    (hg : ∀ d, Over ts d → Gives ts (g ()) d Q) : Gives ts (declare anchor >>= g) c Q := by
  cases anchor with
  | none => exact hg c hc
  | some name => exact hg _ ⟨hc.tokens, hc.nodes⟩

theorem node_succ (ih : Sourced ts fuel) (block indentless : Bool) (hc : Over ts c) :
    Gives ts (Composition.node (fuel + 1) block indentless) c fun x d =>
      x.From ts ∧ (indentless = false → x.isScalar = true ∨ Ended ts d) := by
  unfold Composition.node
  refine .peek_cases ?_ fun hrest t us ht => ?_
  · refine .bind (gives_properties hc) fun ⟨anchor, tag⟩ d hd _ => ?_
    refine .get_bind (declare_bind anchor hd fun e he => .count_bind he fun f hf _ => ?_)
    have hlast (x : Node) (g : Composition) (hg : Over ts g) (hx : x.From ts)
        (hend : indentless = false → x.isScalar = true ∨ Ended ts g) :
        Gives ts (record anchor d.anchors x) g fun x d =>
          x.From ts ∧ (indentless = false → x.isScalar = true ∨ Ended ts d) := by
      refine (gives_record anchor d.anchors hg hx).mono ?_
      rintro _ e ⟨rfl, he⟩
      exact ⟨hx, fun h => (hend h).imp_right fun hended => hended.of_tokens_eq he⟩
    have hbare : Gives ts (bareNode anchor tag >>= record anchor d.anchors) f fun x d =>
        x.From ts ∧ (indentless = false → x.isScalar = true ∨ Ended ts d) := by
      unfold bareNode
      split
      · exact hlast _ f hf (.empty tag) fun _ => .inl rfl
      · exact .throw
    refine .peek_cases hbare fun _ t us ht => ?_
    split
    · next text style hscalar =>
      obtain rfl := Option.some.inj hscalar
      refine .drop_bind hf ht fun g hg hsuffix => ?_
      exact hlast _ g hg (.token tag (hsuffix.mem List.mem_cons_self)) fun _ => .inl rfl
    · refine .drop_bind hf ht fun g hg _ => .bind (ih.flowItems g true hg) fun xs h hh hxs => ?_
      exact hlast _ h hh (.sequence tag hxs.1) fun _ => .inr hxs.2
    · refine .drop_bind hf ht fun g hg _ => .bind (ih.flowEntries g true hg) fun es h hh hes => ?_
      exact hlast _ h hh (.mapping tag (fun p hp => (hes.1 p hp).1) fun p hp => (hes.1 p hp).2)
        fun _ => .inr hes.2
    · split
      · next hindentless =>
        refine .bind (ih.indentlessItems f hf) fun xs h hh hxs => ?_
        exact hlast _ h hh (.sequence tag hxs) fun h => absurd (h.symm.trans hindentless) (by simp)
      · exact hbare
    · split
      · refine .drop_bind hf ht fun g hg _ => .bind (ih.blockItems g hg) fun xs h hh hxs => ?_
        exact hlast _ h hh (.sequence tag hxs.1) fun _ => .inr hxs.2
      · exact hbare
    · split
      · refine .drop_bind hf ht fun g hg _ => .bind (ih.blockEntries g hg) fun es h hh hes => ?_
        exact hlast _ h hh (.mapping tag (fun p hp => (hes.1 p hp).1) fun p hp => (hes.1 p hp).2)
          fun _ => .inr hes.2
      · exact hbare
    · exact hbare
  · split
    · next name halias =>
      obtain rfl := Option.some.inj halias
      refine .drop_bind hc ht fun d hd hsuffix => .count_bind hd fun e he heq => .get_bind ?_
      split
      · exact .pure he ⟨.alias _, fun _ => .inr (.of_tokens_eq ⟨_, rfl, hsuffix⟩ heq)⟩
      · exact .throw
    · exact hrest

end Sourced

theorem sourced (ts : List Token) (fuel : Nat) : Sourced ts fuel := by
  induction fuel with
  | zero =>
    exact ⟨fun _ _ _ _ => .throw, fun _ _ => .throw, fun _ _ => .throw, fun _ _ => .throw,
      fun _ _ => .throw, fun _ _ _ => .throw, fun _ _ => .throw, fun _ _ _ => .throw⟩
  | succ fuel ih =>
    exact ⟨fun _ block indentless hc => ih.node_succ block indentless hc,
      fun _ hc => ih.blockItems_succ hc, fun _ hc => ih.indentlessItems_succ hc,
      fun _ hc => ih.blockEntries_succ hc, fun _ hc => ih.blockPart_succ hc,
      fun _ first hc => ih.flowItems_succ first hc, fun _ hc => ih.flowPair_succ hc,
      fun _ first hc => ih.flowEntries_succ first hc⟩

end Composition

namespace Document

structure From (ts : List Token) (d : Document) : Prop where
  root : d.root.From ts
  nodes : ∀ a ∈ d.anchors.nodes, a.node.From ts

variable {ts us : List Token} {d : Document}

theorem From.mono (h : d.From us) (hus : us <:+ ts) : d.From ts :=
  ⟨h.root.mono hus, fun a ha => (h.nodes a ha).mono hus⟩

theorem mem_getLast?_of_suffix {t t' : Token} (h : t :: us <:+ ts) (ht' : t' ∈ ts.getLast?) :
    t' = t ∨ t' ∈ us.getLast? := by
  obtain ⟨vs, rfl⟩ := h
  rw [List.getLast?_append, List.getLast?_cons, Option.some_or, Option.mem_some_iff] at ht'
  cases hus : us.getLast? with
  | none =>
    rw [hus] at ht'
    exact .inl ht'.symm
  | some t'' =>
    rw [hus] at ht'
    exact .inr (ht' ▸ rfl)

theorem compose_sourced {handles : List (Text × Text)} {explicit : Bool}
    (h : compose handles explicit ts = .ok d) :
    d.From ts ∧ (d.root.isScalar = false → ∀ t ∈ ts.getLast?, t.isScalar = false) := by
  have hc : Composition.Over ts ⟨ts, handles, .empty, 0⟩ :=
    ⟨List.suffix_rfl, by simp⟩
  obtain ⟨⟨node, c⟩, hcontent, h⟩ := bind_eq_ok h
  have hgives : Composition.Over ts c ∧ node.From ts ∧
      (node.isScalar = true ∨ Composition.Ended ts c) := by
    split at hcontent
    · cases hcontent
      exact ⟨⟨List.suffix_rfl, hc.nodes⟩, .empty none, .inl rfl⟩
    · obtain ⟨hover, hfrom, hended⟩ :=
        (Composition.sourced ts _).node _ true false hc node c hcontent
      exact ⟨hover, hfrom, hended rfl⟩
  obtain ⟨hover, hfrom, hended⟩ := hgives
  dsimp only at h
  split at h
  · next hends =>
    cases h
    refine ⟨⟨hfrom, hover.nodes⟩, fun hroot => ?_⟩
    have hroot : node.isScalar = false := hroot
    rw [hroot] at hended
    obtain ⟨t, ht, hsuffix⟩ := hended.resolve_left Bool.false_ne_true
    intro t' ht'
    rcases mem_getLast?_of_suffix hsuffix ht' with rfl | hmem
    · exact ht
    · have hend := List.all_eq_true.mp hends t' (List.mem_of_getLast? hmem)
      rw [of_decide_eq_true hend]
      rfl
  · cases h

theorem suffix_directives {version : Bool} {handles hs : List (Text × Text)}
    (h : directives version handles ts = .ok (hs, us)) : us <:+ ts := by
  induction ts generalizing version handles with
  | nil =>
    cases h
    exact List.suffix_rfl
  | cons t ts ih =>
    have hrest (version : Bool) (handles : List (Text × Text))
        (h : directives version handles ts = .ok (hs, us)) : us <:+ t :: ts :=
      (ih h).trans (List.suffix_cons t ts)
    cases t with
    | versionDirective major minor =>
      unfold directives at h
      split at h
      · cases h
      · split at h
        · exact hrest _ _ h
        · cases h
    | tagDirective handle stem =>
      unfold directives at h
      split at h
      · cases h
      · exact hrest _ _ h
    | _ =>
      cases h
      exact List.suffix_rfl

theorem ofTokens_sourced (h : ofTokens ts = .ok d) :
    d.From ts ∧ (d.root.isScalar = false → ∀ t ∈ ts.getLast?, t.isScalar = false) := by
  cases ts with
  | nil =>
    cases h
    exact ⟨⟨.empty none, by simp⟩, fun hroot => by cases hroot⟩
  | cons t ts =>
    simp only [ofTokens] at h
    split at h
    · obtain ⟨⟨handles, us⟩, hus, h⟩ := bind_eq_ok h
      split at h
      · next handles' vs heq =>
        cases heq
        have hsuffix := suffix_directives hus
        obtain ⟨hfrom, hlast⟩ := compose_sourced h
        refine ⟨hfrom.mono ((List.suffix_cons _ vs).trans hsuffix), fun hroot t' ht' => ?_⟩
        rcases mem_getLast?_of_suffix hsuffix ht' with rfl | hmem
        · rfl
        · exact hlast hroot t' hmem
      · cases h
    · exact compose_sourced h

end Document
end VersionDrift.Yaml

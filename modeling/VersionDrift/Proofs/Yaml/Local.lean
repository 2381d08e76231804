import VersionDrift.Proofs.Yaml.Composed

/-!
# Reading up to a token

What has been read before a token does not depend on the tokens after it.
-/

set_option autoImplicit false

namespace VersionDrift.Yaml.Composition

section

variable (u : Token) (R R' : List Token)

/-- Two compositions that differ in the tokens after `u`, which both still have ahead. -/
def Aligned (c c' : Composition) : Prop :=
  ∃ W, c.tokens = W ++ u :: R ∧ c' = { c with tokens := W ++ u :: R' }

def Past (c : Composition) : Prop := c.tokens.length ≤ R.length

/-- Tokens are only taken, and until `u` is taken the tokens after it do not matter. -/
def Local {α : Type} (f : Reading α) : Prop := ∀ c a d, f.run c = .ok (a, d) →
  d.tokens <:+ c.tokens ∧ ∀ c', Aligned u R R' c c' →
    Past R d ∨ ∃ d', f.run c' = .ok (a, d') ∧ Aligned u R R' d d'

end

namespace Local

variable {u : Token} {R R' : List Token} {α β : Type}

theorem pure (a : α) : Local u R R' (Pure.pure a) := by
  intro c b d h
  cases h
  exact ⟨List.suffix_rfl, fun c' hc => .inr ⟨c', rfl, hc⟩⟩

theorem throw {e : Error} : Local u R R' (throw e : Reading α) := by
  intro c a d h
  cases h

theorem bind {f : Reading α} {g : α → Reading β} (hf : Local u R R' f)
    (hg : ∀ a, Local u R R' (g a)) : Local u R R' (f >>= g) := by
  intro c b e h
  obtain ⟨a, d, ha, hb⟩ := run_bind_eq_ok h
  obtain ⟨hsuffix, hf⟩ := hf c a d ha
  obtain ⟨hsuffix', hg⟩ := hg a d b e hb
  refine ⟨hsuffix'.trans hsuffix, fun c' hc => ?_⟩
  rcases hf c' hc with hd | ⟨d', ha', hd⟩
  · exact .inl (Nat.le_trans hsuffix'.length_le hd)
  · rw [run_bind_of_eq_ok ha']
    exact hg d' hd

theorem ite {p : Prop} [Decidable p] {f g : Reading α} (hf : Local u R R' f)
    (hg : Local u R R' g) : Local u R R' (if p then f else g) := by
  split
  · exact hf
  · exact hg

theorem peek : Local u R R' peek := by
  intro c o d h
  cases h
  refine ⟨List.suffix_rfl, fun c' hc => .inr ⟨c', ?_, hc⟩⟩
  obtain ⟨W, hW, rfl⟩ := hc
  have hhead : c.tokens.head? = (W ++ u :: R').head? := by
    rw [hW]
    cases W <;> rfl
  rw [hhead]
  rfl

theorem drop : Local u R R' drop := by
  intro c o d h
  cases h
  refine ⟨List.tail_suffix c.tokens, ?_⟩
  rintro c' ⟨W, hW, rfl⟩
  cases W with
  | nil =>
    left
    simp [Past, hW]
  | cons w W => exact .inr ⟨_, rfl, W, by simp [hW], rfl⟩

theorem modify {m : Composition → Composition}
    (hm : ∀ (c : Composition) ts, m { c with tokens := ts } = { m c with tokens := ts }) :
    Local u R R' (modify m) := by
  have htokens (c : Composition) : (m c).tokens = c.tokens := by
    have heq := congrArg Composition.tokens (hm c c.tokens)
    exact heq
  intro c o d h
  cases h
  refine ⟨htokens c ▸ List.suffix_rfl, fun c' hc => ?_⟩
  obtain ⟨W, hW, rfl⟩ := hc
  exact .inr ⟨m { c with tokens := W ++ u :: R' }, rfl, W, by rw [htokens, hW], hm c _⟩

theorem get_bind {g : Composition → Reading β} (hg : ∀ c, Local u R R' (g c))
    (hsame : ∀ (c : Composition) ts, g { c with tokens := ts } = g c) :
    Local u R R' (get >>= g) := by
  intro c b d h
  obtain ⟨hsuffix, hread⟩ := hg c c b d h
  refine ⟨hsuffix, fun c' hc => ?_⟩
  rcases hread c' hc with hd | ⟨d', hb, hd⟩
  · exact .inl hd
  · refine .inr ⟨d', ?_, hd⟩
    obtain ⟨W, -, rfl⟩ := hc
    change (g { c with tokens := W ++ u :: R' }).run _ = _
    rw [hsame]
    exact hb

theorem count : Local u R R' count := modify fun _ _ => rfl

theorem emptyScalar : Local u R R' emptyScalar := count.bind fun _ => .pure _

theorem leavesEmpty (ends : List Token) : Local u R R' (leavesEmpty ends) := by
  refine peek.bind fun o => ?_
  cases o <;> exact .pure _

theorem resolve (handle suffix : Text) : Local u R R' (resolve handle suffix) := by
  unfold Composition.resolve
  split
  · exact .pure _
  · refine get_bind (fun c => ?_) fun _ _ => rfl
    split
    · exact .pure _
    · exact .throw

theorem properties : Local u R R' properties := by
  unfold Composition.properties
  extract_lets anchor? tag?
  have hanchor : Local u R R' anchor? := by
    refine peek.bind fun o => ?_
    split
    · exact drop.bind fun _ => .pure _
    · exact .pure _
  have htag : Local u R R' tag? := by
    refine peek.bind fun o => ?_
    split
    · exact drop.bind fun _ => (resolve _ _).bind fun _ => .pure _
    · exact .pure _
  refine hanchor.bind fun anchor => ?_
  cases anchor with
  | some name => exact htag.bind fun _ => .pure _
  | none =>
    refine htag.bind fun tag => ?_
    split
    · exact hanchor.bind fun _ => .pure _
    · exact .pure _

theorem declare (anchor : Option Text) : Local u R R' (declare anchor) := by
  cases anchor with
  | some name => exact modify fun _ _ => rfl
  | none => exact .pure _

theorem record (anchor : Option Text) (before : Anchors) (x : Node) :
    Local u R R' (record anchor before x) := by
  unfold Composition.record
  split
  · exact (modify fun _ _ => rfl).bind fun _ => .pure _
  · exact .pure _

theorem bareNode (anchor tag : Option Text) : Local u R R' (bareNode anchor tag) :=
  .ite (.pure _) .throw

theorem flowSeparator (first : Bool) : Local u R R' (flowSeparator first) := by
  unfold Composition.flowSeparator
  split
  · exact peek.bind fun _ => .ite drop .throw
  · exact .pure _

end Local

structure AllLocal (u : Token) (R R' : List Token) (n : Nat) : Prop where
  node : ∀ block indentless, Local u R R' (node n block indentless)
  blockItems : Local u R R' (blockItems n)
  indentlessItems : Local u R R' (indentlessItems n)
  blockEntries : Local u R R' (blockEntries n)
  blockPart : Local u R R' (blockPart n)
  flowItems : ∀ first, Local u R R' (flowItems n first)
  flowPair : Local u R R' (flowPair n)
  flowEntries : ∀ first, Local u R R' (flowEntries n first)

namespace AllLocal

variable {u : Token} {R R' : List Token} {n : Nat} {α : Type}

theorem part_bind {ends : List Token} {x : Reading Node} {k : Node → Reading α}
    (hx : Local u R R' x) (hk : ∀ x, Local u R R' (k x)) :
    Local u R R' (leavesEmpty ends >>= fun b => if b = true then emptyScalar >>= k else x >>= k) :=
  (Local.leavesEmpty ends).bind fun _ => .ite (Local.emptyScalar.bind hk) (hx.bind hk)

theorem value_bind {x : Reading α} {k : Node → Reading α} (hx : Local u R R' x)
    (hk : ∀ x, Local u R R' (k x)) :
    Local u R R' (peek >>= fun t => match t with
      | some .value => drop >>= fun _ => x
      | _ => emptyScalar >>= k) := by
  refine Local.peek.bind fun o => ?_
  split
  · exact Local.drop.bind fun _ => hx
  · exact Local.emptyScalar.bind hk

theorem cons {a : α} {f : Reading (List α)} (hf : Local u R R' f) :
    Local u R R' (f >>= fun as => Pure.pure (a :: as)) := hf.bind fun _ => .pure _

theorem close :
    Local u R R' (drop >>= fun _ => count >>= fun _ => Pure.pure ([] : List α)) :=
  Local.drop.bind fun _ => Local.count.bind fun _ => .pure _

theorem node_succ (h : AllLocal u R R' n) (block indentless : Bool) :
    Local u R R' (Composition.node (n + 1) block indentless) := by
  unfold Composition.node
  refine Local.peek.bind fun o => ?_
  split
  · refine Local.drop.bind fun _ => Local.count.bind fun _ => ?_
    refine Local.get_bind (fun c => ?_) fun _ _ => rfl
    split
    · exact .pure _
    · exact .throw
  · refine Local.properties.bind fun p => Local.get_bind (fun c => ?_) fun _ _ => rfl
    refine (Local.declare _).bind fun _ => Local.count.bind fun _ => Local.peek.bind fun o => ?_
    have hlast (x : Node) : Local u R R' (Composition.record p.1 c.anchors x) := Local.record _ _ x
    have hbare := (Local.bareNode p.1 p.2).bind hlast
    split
    · exact Local.drop.bind fun _ => hlast _
    · exact Local.drop.bind fun _ => (h.flowItems true).bind fun _ => hlast _
    · exact Local.drop.bind fun _ => (h.flowEntries true).bind fun _ => hlast _
    · exact .ite (h.indentlessItems.bind fun _ => hlast _) hbare
    · exact .ite (Local.drop.bind fun _ => h.blockItems.bind fun _ => hlast _) hbare
    · exact .ite (Local.drop.bind fun _ => h.blockEntries.bind fun _ => hlast _) hbare
    · exact hbare

theorem blockItems_succ (h : AllLocal u R R' n) :
    Local u R R' (Composition.blockItems (n + 1)) := by
  unfold Composition.blockItems
  refine Local.peek.bind fun o => ?_
  split
  · exact Local.drop.bind fun _ => part_bind (h.node true false) fun _ => cons h.blockItems
  · exact close
  · exact .throw

theorem indentlessItems_succ (h : AllLocal u R R' n) :
    Local u R R' (Composition.indentlessItems (n + 1)) := by
  unfold Composition.indentlessItems
  refine Local.peek.bind fun o => ?_
  split
  · exact Local.drop.bind fun _ => part_bind (h.node true false) fun _ => cons h.indentlessItems
  · exact Local.count.bind fun _ => .pure _

theorem blockEntries_succ (h : AllLocal u R R' n) :
    Local u R R' (Composition.blockEntries (n + 1)) := by
  unfold Composition.blockEntries
  refine Local.peek.bind fun o => ?_
  split
  · refine Local.drop.bind fun _ => h.blockPart.bind fun key => ?_
    exact value_bind (h.blockPart.bind fun _ => cons h.blockEntries) fun _ => cons h.blockEntries
  · exact close
  · exact .throw

theorem blockPart_succ (h : AllLocal u R R' n) : Local u R R' (Composition.blockPart (n + 1)) :=
  (Local.leavesEmpty _).bind fun _ => .ite .emptyScalar (h.node true true)

theorem flowPair_succ (h : AllLocal u R R' n) : Local u R R' (Composition.flowPair (n + 1)) := by
  unfold Composition.flowPair
  refine (Local.leavesEmpty _).bind fun _ => .ite
    (Local.drop.bind fun _ => Local.emptyScalar.bind fun key => ?_)
    ((h.node false false).bind fun key => ?_)
  · exact value_bind (part_bind (h.node false false) fun _ => .pure _) fun _ => .pure _
  · exact value_bind (part_bind (h.node false false) fun _ => .pure _) fun _ => .pure _

theorem flowItems_succ (h : AllLocal u R R' n) (first : Bool) :
    Local u R R' (Composition.flowItems (n + 1) first) := by
  unfold Composition.flowItems
  refine Local.peek.bind fun o => .ite close ?_
  refine (Local.flowSeparator first).bind fun _ => Local.peek.bind fun o => ?_
  split
  · exact close
  · exact Local.drop.bind fun _ => Local.count.bind fun _ => h.flowPair.bind fun _ =>
      Local.count.bind fun _ => cons (h.flowItems false)
  · exact (h.node false false).bind fun _ => cons (h.flowItems false)

theorem flowEntries_succ (h : AllLocal u R R' n) (first : Bool) :
    Local u R R' (Composition.flowEntries (n + 1) first) := by
  unfold Composition.flowEntries
  refine Local.peek.bind fun o => .ite close ?_
  refine (Local.flowSeparator first).bind fun _ => Local.peek.bind fun o => ?_
  have hlast (key value : Node) := cons (a := (key, value)) (h.flowEntries false)
  split
  · exact close
  · refine Local.drop.bind fun _ => part_bind (h.node false false) fun key => ?_
    exact value_bind (part_bind (h.node false false) (hlast key)) (hlast key)
  · exact (h.node false false).bind fun key => Local.emptyScalar.bind (hlast key)

end AllLocal

theorem allLocal (u : Token) (R R' : List Token) (n : Nat) : AllLocal u R R' n := by
  induction n with
  | zero =>
    exact ⟨fun _ _ => .throw, .throw, .throw, .throw, .throw, fun _ => .throw, .throw,
      fun _ => .throw⟩
  | succ n ih =>
    exact ⟨ih.node_succ, ih.blockItems_succ, ih.indentlessItems_succ, ih.blockEntries_succ,
      ih.blockPart_succ, ih.flowItems_succ, ih.flowPair_succ, ih.flowEntries_succ⟩

end VersionDrift.Yaml.Composition

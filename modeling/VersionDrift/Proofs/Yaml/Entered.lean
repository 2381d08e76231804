import VersionDrift.Proofs.Yaml.Local

/-!
# Entries of block mappings

The reading of a document comes to the entries of its block mappings one after the
other. What it makes of the tokens from there on is put back in place by what it has
read before, which does not depend on them.
-/

set_option autoImplicit false

namespace VersionDrift.Yaml

namespace Document

inductive Starts : List Token → List (Text × Text) → List Token → Prop
  | implicit {us : List Token}
      (content : ∀ t ∈ us.head?, isDirective t = false ∧ t ≠ .documentStart) :
      Starts us defaultHandles us
  | explicit {ts us : List Token} {handles : List (Text × Text)}
      (read : directives false [] ts = .ok (handles, .documentStart :: us)) :
      Starts ts handles us

end Document

namespace Composition

def blockEntry (n : Nat) : Reading (Node × Node) := do
  drop
  let key ← blockPart n
  let value ← match ← peek with
    | some .value => drop; blockPart n
    | _ => emptyScalar
  return (key, value)

def inRoot (anchor : Option Text) (rest : List Token) (c : Composition) : Composition :=
  { c with
    tokens := rest
    anchors := anchor.elim c.anchors fun name => c.anchors.declare name
    size := c.size + 1 }

/-- A block mapping without anchor and tag stands under a plain key, and its first entry is next. -/
def inField (rest : List Token) (c : Composition) : Composition :=
  { c with tokens := rest, size := c.size + 2 }

/-- The reading of the tokens `ts` comes to an entry of a block mapping, or to its end, with a bound
that is left for the entries: in the root, or at a path of plain keys under it, where the mappings
have no anchors and no tags. -/
inductive Enters (ts : List Token) : List Text → Nat → Composition → Prop
  | root {handles : List (Text × Text)} {us rest : List Token} {props : Option Text × Option Text}
      {c : Composition} (starts : Document.Starts ts handles us)
      (read : properties.run ⟨us, handles, .empty, 0⟩ = .ok (props, c))
      (begins : c.tokens = .blockMappingStart :: rest) :
      Enters ts [] (4 * us.length + 7) (c.inRoot props.1 rest)
  | past {path : List Text} {n : Nat} {c d : Composition} {e : Node × Node}
      (before : Enters ts path (n + 1) c) (key : c.tokens.head? = some .key)
      (read : (blockEntry n).run c = .ok (e, d)) : Enters ts path n d
  | into {path : List Text} {n : Nat} {c : Composition} {key : Text} {rest : List Token}
      (before : Enters ts path (n + 3) c)
      (begins : c.tokens = .key :: .scalar key .plain :: .value :: .blockMappingStart :: rest) :
      Enters ts (path ++ [key]) n (c.inField rest)

section

variable {c : Composition} {n : Nat} {key : Text} {rest : List Token}

@[simp] theorem run_peek (c : Composition) : peek.run c = .ok (c.tokens.head?, c) := rfl

@[simp]
theorem run_drop (c : Composition) : drop.run c = .ok ((), { c with tokens := c.tokens.tail }) :=
  rfl

theorem blockEntries_of_key (h : c.tokens.head? = some .key) :
    (blockEntries (n + 1)).run c =
      (blockEntry n >>= fun e => blockEntries n >>= fun es => pure (e :: es)).run c := by
  conv => lhs; unfold blockEntries
  unfold blockEntry
  rw [run_bind_of_eq_ok (run_peek c), h]
  simp only [bind_assoc]
  refine congrArg (StateT.run · c) ?_
  refine bind_congr fun _ => bind_congr fun key => bind_congr fun o => ?_
  split
  · simp only [bind_assoc, pure_bind]
  · simp only [bind_assoc, pure_bind]

theorem run_blockPart_scalar {text : Text} {style : ScalarStyle}
    (h : c.tokens = .scalar text style :: rest) : (blockPart (n + 2)).run c =
      .ok (.scalar none text style, { c with tokens := rest, size := c.size + 1 }) := by
  obtain ⟨tokens, handles, anchors, size⟩ := c
  obtain rfl : tokens = _ := h
  unfold blockPart node
  rfl

theorem run_node_mapping {props : Option Text × Option Text} {d : Composition} (indentless : Bool)
    (hprops : properties.run c = .ok (props, d)) (hd : d.tokens = .blockMappingStart :: rest) :
    (node (n + 1) true indentless).run c = (blockEntries n).run (d.inRoot props.1 rest) >>= fun p =>
      (record props.1 d.anchors (.mapping props.2 p.1)).run p.2 := by
  have hbegin : (declare props.1 >>= fun _ => count).run d =
      .ok ((), { d.inRoot props.1 rest with tokens := .blockMappingStart :: rest }) := by
    obtain ⟨tokens, handles, anchors, size⟩ := d
    obtain rfl : tokens = _ := hd
    obtain ⟨anchor, tag⟩ := props
    cases anchor <;> rfl
  unfold node
  rw [run_bind_of_eq_ok (run_peek c)]
  split
  · next name halias =>
    have hc : properties.run c = .ok ((none, none), c) := by
      obtain ⟨tokens, handles, anchors, size⟩ := c
      cases tokens with
      | nil => cases halias
      | cons t ts =>
        cases halias
        rfl
    rw [hc] at hprops
    cases hprops
    rw [hd] at halias
    cases halias
  · rw [run_bind_of_eq_ok hprops]
    obtain ⟨anchor, tag⟩ := props
    change (declare anchor >>= fun _ => count >>= _).run d = _
    rw [← bind_assoc, run_bind_of_eq_ok hbegin, run_bind_of_eq_ok (run_peek _)]
    change ((blockEntries n >>= fun es => record anchor d.anchors (.mapping tag es)).run
      (d.inRoot anchor rest)) = _
    exact StateT.run_bind ..

theorem blockEntries_of_plain (h : c.tokens = .key :: .scalar key .plain :: .value :: rest) :
    (blockEntries (n + 3)).run c =
      (blockPart (n + 2) >>= fun x => blockEntries (n + 2) >>= fun es =>
        pure ((.scalar none key .plain, x) :: es)).run
          { c with tokens := rest, size := c.size + 1 } := by
  obtain ⟨tokens, handles, anchors, size⟩ := c
  obtain rfl : tokens = _ := h
  rw [blockEntries_of_key rfl]
  unfold blockEntry
  simp only [bind_assoc]
  rw [run_bind_of_eq_ok (run_drop _), run_bind_of_eq_ok (run_blockPart_scalar rfl),
    run_bind_of_eq_ok (run_peek _)]
  simp only [List.head?_cons, bind_assoc, pure_bind]
  exact run_bind_of_eq_ok (run_drop _)

theorem blockEntries_of_scalar {text : Text} {style : ScalarStyle}
    (h : c.tokens = .key :: .scalar key .plain :: .value :: .scalar text style :: rest) :
    (blockEntries (n + 3)).run c =
      (blockEntries (n + 2) >>= fun es =>
        pure ((.scalar none key .plain, .scalar none text style) :: es)).run
          { c with tokens := rest, size := c.size + 2 } := by
  rw [blockEntries_of_plain h]
  exact run_bind_of_eq_ok (run_blockPart_scalar rfl)

theorem exists_add_three {r : List (Node × Node) × Composition}
    (h : c.tokens = .key :: .scalar key .plain :: rest) (hr : (blockEntries n).run c = .ok r) :
    ∃ k, n = k + 3 := by
  obtain ⟨tokens, handles, anchors, size⟩ := c
  obtain rfl : tokens = _ := h
  match n with
  | 0 => cases hr
  | 1 => cases hr
  | 2 => cases hr
  | k + 3 => exact ⟨k, rfl⟩

theorem exists_head_of_blockEntries {r : List (Node × Node) × Composition}
    (h : (blockEntries n).run c = .ok r) :
    ∃ u us, c.tokens = u :: us ∧ (u = .key ∨ u = .blockEnd) := by
  obtain ⟨tokens, handles, anchors, size⟩ := c
  cases n with
  | zero => cases h
  | succ n =>
    unfold blockEntries at h
    rw [run_bind_of_eq_ok (run_peek _)] at h
    cases tokens with
    | nil => cases h
    | cons u us =>
      refine ⟨u, us, rfl, ?_⟩
      cases u with
      | key => exact .inl rfl
      | blockEnd => exact .inr rfl
      | _ => cases h

/-- The entries of a mapping under a plain key, and then the entries after it. -/
theorem blockEntries_of_inField
    (h : c.tokens = .key :: .scalar key .plain :: .value :: .blockMappingStart :: rest) :
    (blockEntries (n + 3)).run c = (blockEntries n).run (c.inField rest) >>= fun p =>
      (blockEntries (n + 2) >>= fun es =>
        pure ((.scalar none key .plain, .mapping none p.1) :: es)).run p.2 := by
  have hprops : properties.run
      { c with tokens := .blockMappingStart :: rest, size := c.size + 1 } =
        .ok ((none, none), { c with tokens := .blockMappingStart :: rest, size := c.size + 1 }) :=
    rfl
  have hmapping (indentless : Bool) := run_node_mapping (n := n) indentless hprops rfl
  have hpart : (blockPart (n + 2)).run
      { c with tokens := .blockMappingStart :: rest, size := c.size + 1 } =
        (node (n + 1) true true).run
          { c with tokens := .blockMappingStart :: rest, size := c.size + 1 } := by
    unfold blockPart
    rfl
  rw [blockEntries_of_plain h, StateT.run_bind, hpart, hmapping true, bind_assoc]
  rfl

theorem Local.aligned {u : Token} {W R : List Token} {α : Type} {f : Reading α} {a : α}
    {d : Composition} (hf : ∀ R', Local u R R' f) (h : f.run c = .ok (a, d))
    (hd : d.tokens = W ++ u :: R) : ∃ Q, c.tokens = Q ++ (W ++ u :: R) ∧ ∀ R',
      f.run { c with tokens := Q ++ (W ++ u :: R') } =
        .ok (a, { d with tokens := W ++ u :: R' }) := by
  obtain ⟨Q, hQ⟩ := (hf R c a d h).1
  rw [hd] at hQ
  refine ⟨Q, hQ.symm, fun R' => ?_⟩
  rcases (hf R' c a d h).2 { c with tokens := Q ++ (W ++ u :: R') }
    ⟨Q ++ W, by rw [← hQ, List.append_assoc], by rw [List.append_assoc]⟩ with hpast | hread
  · have hlength : (W ++ u :: R).length ≤ R.length := hd ▸ hpast
    simp only [List.length_append, List.length_cons] at hlength
    omega
  · obtain ⟨d', hread, W', hW', rfl⟩ := hread
    obtain rfl : W = W' := List.append_cancel_right (hd.symm.trans hW')
    exact hread

theorem local_blockEntry (u : Token) (R R' : List Token) (n : Nat) :
    Local u R R' (blockEntry n) := by
  have hpart := (allLocal u R R' n).blockPart
  unfold blockEntry
  exact Local.drop.bind fun _ => hpart.bind fun key =>
    AllLocal.value_bind (hpart.bind fun value => .pure (key, value)) fun value => .pure (key, value)

end

end Composition

namespace Document

open Yaml.Composition

def closing (props : Option Text × Option Text) (before : Anchors)
    (p : List (Node × Node) × Composition) : Except Error Document :=
  let root := Node.mapping props.2 p.1
  let anchors := if props.1.isSome then before.bind root p.2.anchors else p.2.anchors
  if p.2.tokens.all (· = .documentEnd) then .ok ⟨root, anchors, p.2.size⟩
  else .error .severalDocuments

section

variable {handles : List (Text × Text)} {ts us rest : List Token}
  {props : Option Text × Option Text} {c : Composition}

theorem atBoundary_of_properties
    (hprops : properties.run ⟨us, handles, .empty, 0⟩ = .ok (props, c))
    (hc : c.tokens = .blockMappingStart :: rest) : atBoundary us = false := by
  refine Bool.eq_false_iff.mpr fun hboundary => ?_
  cases us with
  | nil =>
    cases hprops
    cases hc
  | cons t us =>
    cases t <;> cases hboundary <;> cases hprops <;> cases hc

theorem compose_eq (explicit : Bool)
    (hprops : properties.run ⟨us, handles, .empty, 0⟩ = .ok (props, c))
    (hc : c.tokens = .blockMappingStart :: rest) : compose handles explicit us =
      (blockEntries (4 * us.length + 7)).run (c.inRoot props.1 rest) >>=
        closing props c.anchors := by
  have hnode : (node (4 * us.length + 8) true false).run ⟨us, handles, .empty, 0⟩ = _ :=
    run_node_mapping false hprops hc
  unfold compose
  rw [atBoundary_of_properties hprops hc, Bool.and_false, if_neg Bool.false_ne_true]
  dsimp only
  rw [hnode, bind_assoc]
  refine bind_congr fun p => ?_
  obtain ⟨es, d⟩ := p
  obtain ⟨anchor, tag⟩ := props
  cases anchor <;> rfl

theorem Starts.ofTokens_eq (h : Starts ts handles us)
    (hprops : properties.run ⟨us, handles, .empty, 0⟩ = .ok (props, c))
    (hc : c.tokens = .blockMappingStart :: rest) : ofTokens ts =
      (blockEntries (4 * us.length + 7)).run (c.inRoot props.1 rest) >>=
        closing props c.anchors := by
  cases h with
  | implicit content =>
    cases ts with
    | nil =>
      cases hprops
      cases hc
    | cons t us =>
      obtain ⟨hdirective, hstart⟩ := content t rfl
      rw [← compose_eq false hprops hc]
      simp [ofTokens, hdirective, hstart]
  | explicit read =>
    rw [← compose_eq true hprops hc]
    cases ts with
    | nil => cases read
    | cons t ts =>
      have hstart : (isDirective t || t = .documentStart) = true := by
        by_cases hdirective : isDirective t = true
        · rw [hdirective, Bool.true_or]
        · rw [directives_of_not (Bool.eq_false_iff.mpr hdirective)] at read
          cases read
          rfl
      simp only [ofTokens]
      rw [if_pos hstart, read]
      rfl

theorem directives_append {t : Token} (ht : isDirective t = false) {version : Bool}
    {handles hs : List (Text × Text)} (h : directives version handles ts = .ok (hs, t :: us)) :
    ∃ V, ts = V ++ t :: us ∧
      ∀ us', directives version handles (V ++ t :: us') = .ok (hs, t :: us') := by
  induction ts generalizing version handles with
  | nil => cases h
  | cons d ts ih =>
    by_cases hd : isDirective d = true
    · cases d with
      | versionDirective major minor =>
        unfold directives at h
        split at h
        · cases h
        next hfirst =>
        split at h
        · next hknown =>
          obtain ⟨V, rfl, hV⟩ := ih h
          refine ⟨.versionDirective major minor :: V, rfl, fun us' => ?_⟩
          rw [List.cons_append, directives, if_neg hfirst, if_pos hknown, hV]
        · cases h
      | tagDirective handle stem =>
        unfold directives at h
        split at h
        · cases h
        next hnew =>
        obtain ⟨V, rfl, hV⟩ := ih h
        refine ⟨.tagDirective handle stem :: V, rfl, fun us' => ?_⟩
        rw [List.cons_append, directives, if_neg hnew, hV]
      | _ => cases hd
    · rw [directives_of_not (Bool.eq_false_iff.mpr hd)] at h
      cases h
      exact ⟨[], rfl, fun us' => directives_of_not ht version handles us'⟩

theorem Starts.exists_append (h : Starts ts handles us) :
    ∃ V, ts = V ++ us ∧ ∀ us', us'.head? = us.head? → Starts (V ++ us') handles us' := by
  cases h with
  | implicit content => exact ⟨[], rfl, fun us' hhead => .implicit (hhead ▸ content)⟩
  | explicit read =>
    obtain ⟨V, rfl, hV⟩ := directives_append rfl read
    refine ⟨V ++ [.documentStart], by simp, fun us' _ => .explicit ?_⟩
    rw [List.append_assoc]
    exact hV us'

end

/-- What becomes of the entries of a mapping at a path, when they have been read up to here: those
before them are put in front, and the mappings around are read to their ends. -/
inductive Closes : List Text → (List (Node × Node) × Composition → Except Error Document) → Prop
  | root (props : Option Text × Option Text) (before : Anchors) : Closes [] (closing props before)
  | past {path : List Text} {close : List (Node × Node) × Composition → Except Error Document}
      (e : Node × Node) (after : Closes path close) : Closes path fun p => close (e :: p.1, p.2)
  | into {path : List Text} {close : List (Node × Node) × Composition → Except Error Document}
      (key : Text) (n : Nat) (after : Closes path close) :
      Closes (path ++ [key]) fun p => (blockEntries n).run p.2 >>= fun q =>
        close ((.scalar none key .plain, .mapping none p.1) :: q.1, q.2)

end Document

theorem Composition.Enters.ofTokens_eq {ts : List Token} {path : List Text} {n : Nat}
    {c : Composition} (h : Enters ts path n c) {u : Token} {W R : List Token}
    (hc : c.tokens = W ++ u :: R) :
    ∃ V close, ts = V ++ u :: R ∧ Document.Closes path close ∧ ∀ R', R'.length = R.length →
      Document.ofTokens (V ++ u :: R') =
        (blockEntries n).run { c with tokens := W ++ u :: R' } >>= close := by
  induction h generalizing W with
  | @root handles us rest props c starts read begins =>
    obtain rfl : rest = W ++ u :: R := hc
    obtain ⟨V, rfl, hV⟩ := starts.exists_append
    obtain ⟨P, hP, hread⟩ := Local.aligned (W := .blockMappingStart :: W)
      (fun R' => @Local.properties u R R') read begins
    obtain rfl : us = P ++ .blockMappingStart :: (W ++ u :: R) := hP
    refine ⟨V ++ (P ++ .blockMappingStart :: W), _, by simp, .root props c.anchors,
      fun R' hR' => ?_⟩
    have hstarts := hV (P ++ .blockMappingStart :: (W ++ u :: R')) (by cases P <;> rfl)
    have heq := hstarts.ofTokens_eq (hread R') rfl
    simp only [List.length_append, List.length_cons, hR'] at heq ⊢
    simpa [inRoot] using heq
  | @past path n c d e before key read ih =>
    obtain ⟨Q, hQ, hread⟩ := Local.aligned (fun R' => local_blockEntry u R R' n) read hc
    obtain ⟨V, close, hts, hclose, heq⟩ := ih (hQ.trans (List.append_assoc ..).symm)
    refine ⟨V, _, hts, .past e hclose, fun R' hR' => ?_⟩
    have hhead : (Q ++ (W ++ u :: R')).head? = some .key := by
      rw [← key, hQ]
      cases Q <;> cases W <;> rfl
    rw [heq R' hR', List.append_assoc, blockEntries_of_key hhead, run_bind_of_eq_ok (hread R'),
      StateT.run_bind, bind_assoc]
    rfl
  | @into path n c key rest before begins ih =>
    obtain rfl : rest = W ++ u :: R := hc
    obtain ⟨V, close, hts, hclose, heq⟩ :=
      ih (W := .key :: .scalar key .plain :: .value :: .blockMappingStart :: W) begins
    refine ⟨V, _, hts, .into key (n + 2) hclose, fun R' hR' => ?_⟩
    rw [heq R' hR', blockEntries_of_inField rfl, bind_assoc]
    refine bind_congr fun p => ?_
    rw [StateT.run_bind, bind_assoc]
    rfl

namespace Document

open Yaml.Composition

theorem Closes.root_eq {close : List (Node × Node) × Composition → Except Error Document}
    (h : Closes [] close) :
    ∃ props before above, close = fun p => closing props before (above ++ p.1, p.2) := by
  generalize hpath : ([] : List Text) = path at h
  induction h with
  | root props before => exact ⟨props, before, [], rfl⟩
  | past e after ih =>
    obtain ⟨props, before, above, rfl⟩ := ih hpath
    exact ⟨props, before, above ++ [e], by simp⟩
  | into key n after => simp at hpath

theorem Closes.field_eq {key : Text}
    {close : List (Node × Node) × Composition → Except Error Document} (h : Closes [key] close) :
    ∃ props before above fieldsAbove n, close = fun p => (blockEntries n).run p.2 >>= fun q =>
      closing props before (above ++
        (.scalar none key .plain, .mapping none (fieldsAbove ++ p.1)) :: q.1, q.2) := by
  generalize hpath : [key] = path at h
  induction h with
  | root props before => cases hpath
  | past e after ih =>
    obtain ⟨props, before, above, fieldsAbove, n, rfl⟩ := ih hpath
    exact ⟨props, before, above, fieldsAbove ++ [e], n, by simp⟩
  | @into path close key' n after ih =>
    have hnil : path = [] ∧ key' = key := by
      cases path with
      | nil => simpa [eq_comm] using hpath
      | cons k path => simp at hpath
    obtain ⟨rfl, rfl⟩ := hnil
    obtain ⟨props, before, above, rfl⟩ := after.root_eq
    exact ⟨props, before, above, [], n, rfl⟩

end Document
end VersionDrift.Yaml

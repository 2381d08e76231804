import Mathlib.Data.List.Forall2
import Mathlib.Logic.Relation
import VersionDrift.Proofs.Yaml.Progress

/-!
# Moves of a layout

A step is a chain of moves, each of which changes the open collections, the possible keys
and the tokens in one way. What every move keeps a whole reading keeps: so tokens before
all possible keys stand at the beginning for good.
-/

set_option autoImplicit false

namespace VersionDrift.Yaml

def Token.opens : Token → Bool
  | .blockSequenceStart | .blockMappingStart | .flowSequenceStart | .flowMappingStart => true
  | _ => false

def Token.closes : Token → Bool
  | .blockEnd | .flowSequenceEnd | .flowMappingEnd => true
  | _ => false

namespace Layout

/-- One change of a layout. -/
inductive Move (s : Layout) : Layout → Prop
  | free (c : Cursor) (b : Bool) : Move s { s with cursor := c, keyAllowed := b }
  | forget {candidate : Option PossibleKey} {outer : List (Option PossibleKey)}
      (hcandidate : candidate = s.candidate ∨ candidate = none)
      (houter : List.Forall₂ (fun k k' => k' = k ∨ k' = none) s.outer outer) :
      Move s { s with candidate := candidate, outer := outer }
  | note {k : PossibleKey} (hposition : k.position = s.emitted.length) :
      Move s { s with candidate := some k }
  | emit {t : Token} (hopens : t.opens = false) (hcloses : t.closes = false) : Move s (s.emit t)
  | key {k : PossibleKey} (hcandidate : s.candidate = some k) : Move s (s.insertAt k.position .key)
  | openBlock {column position : Nat} {t : Token} (houter : s.outer = [])
      (hdeeper : s.deeper column = true) (hopens : t.opens = true)
      (hposition : position = s.emitted.length ∨ ∃ k ∈ s.candidate, k.position = position) :
      Move s { s.insertAt position t with columns := column :: s.columns }
  | closeBlock {column : Nat} {columns : List Nat} (houter : s.outer = [])
      (hcolumns : s.columns = column :: columns) :
      Move s { s with columns := columns, emitted := .blockEnd :: s.emitted }
  | openFlow {t : Token} (hopens : t.opens = true) : Move s (s.openFlow.emit t)
  | closeFlow {t : Token} (hcloses : t.closes = true) : Move s (s.closeFlow.emit t)

def Moves : Layout → Layout → Prop := Relation.ReflTransGen Move

namespace Moves

variable {s q r : Layout}

theorem refl (s : Layout) : s.Moves s := Relation.ReflTransGen.refl

theorem of_move (h : s.Move q) : s.Moves q := Relation.ReflTransGen.single h

theorem trans (h : s.Moves q) (h' : q.Moves r) : s.Moves r := Relation.ReflTransGen.trans h h'

theorem tail (h : s.Moves q) (h' : q.Move r) : s.Moves r := Relation.ReflTransGen.tail h h'

theorem keeps {P : Layout → Prop} (hP : ∀ q r : Layout, q.Move r → P q → P r) (h : s.Moves r)
    (hs : P s) : P r := by
  induction h with
  | refl => exact hs
  | tail _ move ih => exact hP _ _ move ih

theorem free (s : Layout) (c : Cursor) (b : Bool) :
    s.Moves { s with cursor := c, keyAllowed := b } := of_move (.free c b)

theorem forgetCandidate (s : Layout) : s.Moves { s with candidate := none } :=
  of_move (.forget (.inr rfl) (List.forall₂_same.mpr fun _ _ => .inl rfl))

theorem dropCandidate (h : s.dropCandidate = .ok q) : s.Moves q := by
  rw [dropCandidate_eq_ok h]
  exact forgetCandidate s

theorem noteCandidate (h : s.noteCandidate = .ok q) : s.Moves q := by
  unfold Layout.noteCandidate at h
  split at h
  · obtain ⟨p, hp, h⟩ := bind_eq_ok h
    cases h
    exact (dropCandidate hp).tail (.note rfl)
  · cases h
    exact refl s

theorem dropStaleKey_eq_ok {line column : Nat} {k k' : Option PossibleKey}
    (h : dropStaleKey line column k = .ok k') : k' = k ∨ k' = none := by
  unfold dropStaleKey at h
  split at h
  · cases h
    exact .inl rfl
  · split at h
    · split at h
      · cases h
      · cases h
        exact .inr rfl
    · cases h
      exact .inl rfl

theorem forget_mapM {line column : Nat} {keys keys' : List (Option PossibleKey)}
    (h : keys.mapM (dropStaleKey line column) = .ok keys') :
    List.Forall₂ (fun k k' => k' = k ∨ k' = none) keys keys' := by
  induction keys generalizing keys' with
  | nil =>
    cases h
    exact .nil
  | cons k ks ih =>
    rw [List.mapM_cons] at h
    obtain ⟨k', hk, h⟩ := bind_eq_ok h
    obtain ⟨ks', hks, h⟩ := bind_eq_ok h
    cases h
    exact .cons (dropStaleKey_eq_ok hk) (ih hks)

theorem dropStale (h : s.dropStale = .ok q) : s.Moves q := by
  obtain ⟨outer, houter, h⟩ := bind_eq_ok h
  obtain ⟨candidate, hcandidate, h⟩ := bind_eq_ok h
  cases h
  exact of_move (.forget (dropStaleKey_eq_ok hcandidate) (forget_mapM houter))

theorem closeBlocks (houter : s.outer = []) {columns : List Nat} (n : Nat)
    (hcolumns : columns = s.columns.drop n) (hn : n ≤ s.columns.length) :
    s.Moves { s with columns := columns, emitted := List.replicate n .blockEnd ++ s.emitted } := by
  induction n generalizing columns with
  | zero =>
    subst hcolumns
    exact refl s
  | succ n ih =>
    have hnext := List.drop_eq_getElem_cons (Nat.lt_of_succ_le hn)
    have hlast := ih rfl (by omega)
    rw [hnext] at hlast
    subst hcolumns
    exact hlast.tail (.closeBlock houter rfl)

theorem closedAt_eq_drop (column : Nat) (columns : List Nat) :
    (closedAt column columns).1 = columns.drop (closedAt column columns).2 ∧
      (closedAt column columns).2 ≤ columns.length := by
  induction columns with
  | nil => exact ⟨rfl, Nat.le_refl 0⟩
  | cons c columns ih =>
    unfold closedAt
    split
    · exact ⟨ih.1, Nat.succ_le_succ ih.2⟩
    · exact ⟨rfl, Nat.zero_le _⟩

theorem closeTo (s : Layout) (column : Nat) : s.Moves (s.closeTo column) := by
  unfold Layout.closeTo
  split
  · exact refl s
  · next hflow =>
    have houter : s.outer = [] := by simpa using hflow
    obtain ⟨hdrop, hle⟩ := closedAt_eq_drop column s.columns
    exact closeBlocks houter _ hdrop hle

theorem closeAll (s : Layout) : s.Moves s.closeAll := by
  unfold Layout.closeAll
  split
  · exact refl s
  · next hflow =>
    have houter : s.outer = [] := by simpa using hflow
    exact closeBlocks houter _ (List.drop_length ..).symm (Nat.le_refl _)

theorem openBlock {column position : Nat} {t : Token} (hopens : t.opens = true)
    (hposition : position = s.emitted.length ∨ ∃ k ∈ s.candidate, k.position = position) :
    s.Moves (s.openBlock column position t) := by
  unfold Layout.openBlock
  split
  · next h =>
    simp only [Bool.and_eq_true, Bool.not_eq_true'] at h
    have houter : s.outer = [] := by simpa using h.1
    exact of_move (.openBlock houter h.2 hopens hposition)
  · exact refl s

theorem openEntry {refusal : Error} {t : Token} (ht : t.opens = true)
    (h : s.openEntry refusal t = .ok q) : s.Moves q := by
  unfold Layout.openEntry at h
  split at h
  · cases h
  · exact (openBlock ht (.inl rfl)).trans (dropCandidate h)

theorem openValue (h : s.openValue = .ok q) : s.Moves q := by
  unfold Layout.openValue at h
  split at h
  · next k hk =>
    cases h
    have hkey : s.Moves (s.insertAt k.position .key) := of_move (.key hk)
    have hblock : (s.insertAt k.position .key).Moves
        ((s.insertAt k.position .key).openBlock k.column k.position .blockMappingStart) :=
      openBlock rfl (.inr ⟨k, hk, rfl⟩)
    exact ((hkey.trans hblock).trans (forgetCandidate _)).trans (free _ _ false)
  · split at h
    · cases h
    · cases h
      exact (openBlock rfl (.inl rfl)).trans (free _ _ _)

end Moves

/-- Wherever the step succeeds it is a chain of moves. -/
def MovesBy (s : Layout) (f : Except Error Layout) : Prop := ∀ r, f = .ok r → s.Moves r

namespace MovesBy

variable {s : Layout} {f g prep : Except Error Layout}

theorem error {e : Error} : s.MovesBy (.error e) := by
  intro r h
  cases h

theorem ite {p : Prop} [Decidable p] (hf : s.MovesBy f) (hg : s.MovesBy g) :
    s.MovesBy (if p then f else g) := by
  split
  · exact hf
  · exact hg

theorem mark (b : Layout → Bool) {k : Nat} {t : Token} (hopens : t.opens = false)
    (hcloses : t.closes = false) (hprep : s.MovesBy prep) :
    s.MovesBy (prep >>= fun q => .ok ((q.allowKey (b q)).take k t)) := by
  intro r h
  obtain ⟨q, hq, h⟩ := bind_eq_ok h
  cases h
  exact (((hprep q hq).tail (.free _ _)).tail (.emit hopens hcloses)).tail (.free _ _)

theorem read {α : Type} (read : Layout → Except Error (α × Cursor)) (token : α → Token)
    (b : Bool) (hprep : s.MovesBy prep)
    (htoken : ∀ q a d, read q = .ok (a, d) → (token a).opens = false ∧ (token a).closes = false) :
    s.MovesBy (prep >>= fun q => read q >>= fun p =>
      .ok (((q.allowKey b).emit (token p.1)).withCursor p.2)) := by
  intro r h
  obtain ⟨q, hq, h⟩ := bind_eq_ok h
  obtain ⟨⟨a, d⟩, hd, h⟩ := bind_eq_ok h
  cases h
  obtain ⟨hopens, hcloses⟩ := htoken q a d hd
  exact (((hprep q hq).tail (.free _ _)).tail (.emit hopens hcloses)).tail (.free _ _)

theorem closeAll_dropCandidate (s : Layout) : s.MovesBy s.closeAll.dropCandidate :=
  fun _ h => (Moves.closeAll s).trans (.dropCandidate h)

theorem documentMark {t : Token} (hopens : t.opens = false) (hcloses : t.closes = false) :
    s.MovesBy (s.documentMark t) :=
  mark (fun _ => false) hopens hcloses (closeAll_dropCandidate s)

theorem directiveLine : s.MovesBy s.directiveLine :=
  read (fun q => Property.directive q.cursor) id false (closeAll_dropCandidate s)
    fun _ _ _ h => by
      rcases Property.token_of_directive h with ⟨_, _, rfl⟩ | ⟨_, _, rfl⟩ <;> exact ⟨rfl, rfl⟩

theorem flowStart {t : Token} (ht : t.opens = true) : s.MovesBy (s.flowStart t) := by
  intro r h
  obtain ⟨q, hq, h⟩ := bind_eq_ok h
  cases h
  exact ((Moves.noteCandidate hq).tail (.openFlow ht)).tail (.free _ _)

theorem flowEnd {t : Token} (ht : t.closes = true) : s.MovesBy (s.flowEnd t) := by
  intro r h
  obtain ⟨q, hq, h⟩ := bind_eq_ok h
  cases h
  exact ((Moves.dropCandidate hq).tail (.closeFlow ht)).tail (.free _ _)

theorem flowSeparator : s.MovesBy s.flowSeparator :=
  mark (fun _ => true) rfl rfl fun _ => .dropCandidate

theorem sequenceEntry : s.MovesBy s.sequenceEntry :=
  mark (fun _ => true) rfl rfl fun _ => .openEntry (t := .blockSequenceStart) rfl

theorem explicitKey : s.MovesBy s.explicitKey :=
  mark (fun q => !q.inFlow) rfl rfl fun _ => .openEntry (t := .blockMappingStart) rfl

theorem mappingValue : s.MovesBy s.mappingValue :=
  mark Layout.keyAllowed rfl rfl fun _ => .openValue

theorem aliasOrAnchor {token : Text → Token} (hopens : ∀ name, (token name).opens = false)
    (hcloses : ∀ name, (token name).closes = false) : s.MovesBy (s.aliasOrAnchor token) :=
  read (fun q => Property.anchorName q.cursor) token false (fun _ => .noteCandidate)
    fun _ name _ _ => ⟨hopens name, hcloses name⟩

theorem tagProperty : s.MovesBy s.tagProperty :=
  read (fun q => Property.tag q.inFlow q.cursor) id false (fun _ => .noteCandidate)
    fun _ _ _ h => by
      obtain ⟨_, _, rfl⟩ := Property.token_of_tag h
      exact ⟨rfl, rfl⟩

theorem blockScalar (literal : Bool) : s.MovesBy (s.blockScalar literal) :=
  read (fun q => BlockScalar.read literal q.columns.head? q.cursor)
    (fun text => .scalar text (if literal then .literal else .folded)) true
    (fun _ => .dropCandidate) fun _ _ _ _ => ⟨rfl, rfl⟩

theorem quotedScalar (single : Bool) : s.MovesBy (s.quotedScalar single) :=
  read (fun q => QuotedScalar.read single q.cursor)
    (fun text => .scalar text (if single then .singleQuoted else .doubleQuoted)) false
    (fun _ => .noteCandidate) fun _ _ _ _ => ⟨rfl, rfl⟩

theorem plainScalar : s.MovesBy s.plainScalar := by
  intro r h
  obtain ⟨q, hq, h⟩ := bind_eq_ok h
  obtain ⟨p, -, h⟩ := bind_eq_ok h
  cases h
  have hnoted := (Moves.noteCandidate hq).tail (.free q.cursor p.brokenOff)
  exact (hnoted.tail (.emit (t := .scalar p.text .plain) rfl rfl)).tail (.free _ _)

end MovesBy

theorem moves_token {s : Layout} (c : Char) (t : Text) : s.MovesBy (s.token c t) := by
  unfold token
  exact .ite .directiveLine <| .ite (.documentMark rfl rfl) <| .ite (.documentMark rfl rfl) <|
    .ite (.flowStart rfl) <| .ite (.flowStart rfl) <| .ite (.flowEnd rfl) <|
    .ite (.flowEnd rfl) <| .ite .flowSeparator <| .ite .sequenceEntry <| .ite .explicitKey <|
    .ite .mappingValue <| .ite (.aliasOrAnchor (fun _ => rfl) fun _ => rfl) <|
    .ite (.aliasOrAnchor (fun _ => rfl) fun _ => rfl) <| .ite .tagProperty <|
    .ite (.blockScalar true) <| .ite (.blockScalar false) <| .ite (.quotedScalar true) <|
    .ite (.quotedScalar false) <| .ite .plainScalar .error

theorem moves_of_next {s r : Layout} (h : s.next = .ok (some r)) : s.Moves r := by
  obtain ⟨q, c, t, hq, -, hr⟩ := tokenHere_eq_some.mp h
  have hskipped : s.Moves s.skipped := Moves.free s _ _
  have hsettled := (hskipped.trans (.dropStale hq)).trans (.closeTo q s.skipped.cursor.column)
  exact hsettled.trans (moves_token c t r hr)

theorem moves_of_run {s : Layout} {n : Nat} {ts : List Token} (h : s.run n = .ok ts) :
    ∃ r, s.Moves r ∧ ts = r.emitted.reverse := by
  induction n generalizing s with
  | zero => cases h
  | succ n ih =>
    obtain ⟨o, ho, h⟩ := bind_eq_ok h
    cases o with
    | none =>
      obtain ⟨q, hq, h⟩ := bind_eq_ok h
      cases h
      exact ⟨q, MovesBy.closeAll_dropCandidate s q hq, rfl⟩
    | some q =>
      obtain ⟨r, hr, hts⟩ := ih h
      exact ⟨r, (moves_of_next ho).trans hr, hts⟩

/-- The tokens `ts`, last first, stand before all other tokens and before all possible keys. -/
structure Over (ts : List Token) (s : Layout) : Prop where
  emitted : ts <:+ s.emitted
  keys : ∀ k, some k ∈ s.candidate :: s.outer → ts.length ≤ k.position

namespace Over

variable {ts : List Token} {s r : Layout}

theorem suffix_insertAt (h : ts <:+ s.emitted) {position : Nat} (hposition : ts.length ≤ position)
    (t : Token) : ts <:+ (s.insertAt position t).emitted := by
  obtain ⟨later, hlater⟩ := h
  have hlength : later.length + ts.length = s.emitted.length := by
    rw [← hlater, List.length_append]
  have hdrop : s.emitted.drop (s.emitted.length - position) =
      later.drop (s.emitted.length - position) ++ ts := by
    rw [← hlater, List.drop_append_of_le_length]
    rw [hlater]
    omega
  refine ⟨s.emitted.take (s.emitted.length - position) ++
    t :: later.drop (s.emitted.length - position), ?_⟩
  simp only [insertAt, hdrop, List.append_assoc, List.cons_append]

theorem mem_of_forget {keys keys' : List (Option PossibleKey)}
    (h : List.Forall₂ (fun k k' => k' = k ∨ k' = none) keys keys') {k : PossibleKey}
    (hk : some k ∈ keys') : some k ∈ keys := by
  induction h with
  | nil => cases hk
  | cons hforget _ ih =>
    rcases List.mem_cons.mp hk with heq | hk
    · rw [← heq] at hforget
      rcases hforget with heq | heq
      · exact heq ▸ List.mem_cons_self
      · cases heq
    · exact List.mem_cons_of_mem _ (ih hk)

theorem move (hmove : s.Move r) (h : Over ts s) : Over ts r := by
  obtain ⟨hemitted, hkeys⟩ := h
  have hemit (t : Token) : ts <:+ t :: s.emitted := hemitted.trans (List.suffix_cons t _)
  cases hmove with
  | free c b => exact ⟨hemitted, hkeys⟩
  | forget hcandidate houter =>
    exact ⟨hemitted, fun k hk => hkeys k (mem_of_forget (.cons hcandidate houter) hk)⟩
  | note hposition =>
    refine ⟨hemitted, fun k hk => ?_⟩
    rcases List.mem_cons.mp hk with heq | hk
    · cases heq
      rw [hposition]
      exact hemitted.length_le
    · exact hkeys k (List.mem_cons_of_mem _ hk)
  | emit hopens hcloses => exact ⟨hemit _, hkeys⟩
  | key hcandidate =>
    exact ⟨suffix_insertAt hemitted (hkeys _ (hcandidate ▸ List.mem_cons_self)) _, hkeys⟩
  | openBlock houter hdeeper hopens hposition =>
    refine ⟨suffix_insertAt hemitted ?_ _, hkeys⟩
    rcases hposition with rfl | ⟨k, hk, rfl⟩
    · exact hemitted.length_le
    · exact hkeys k (Option.mem_def.mp hk ▸ List.mem_cons_self)
  | closeBlock houter hcolumns => exact ⟨hemit _, hkeys⟩
  | openFlow hopens =>
    exact ⟨hemit _, fun k hk => hkeys k ((List.mem_cons.mp hk).resolve_left nofun)⟩
  | closeFlow hcloses =>
    unfold closeFlow
    split
    · exact ⟨hemit _, hkeys⟩
    · next k ks houter =>
      exact ⟨hemit _, fun j hj => hkeys j (List.mem_cons_of_mem _ (houter ▸ hj))⟩

theorem of_moves (h : Over ts s) (hmoves : s.Moves r) : Over ts r :=
  hmoves.keeps (fun _ _ hmove h => h.move hmove) h

/-- Tokens without a possible key among them are the first of a reading. -/
theorem of_run {n : Nat} {us : List Token} (h : Over ts s) (hrun : s.run n = .ok us) :
    ts.reverse <+: us := by
  obtain ⟨r, hmoves, rfl⟩ := moves_of_run hrun
  exact List.reverse_prefix.mpr (h.of_moves hmoves).emitted

end Over

end Layout
end VersionDrift.Yaml

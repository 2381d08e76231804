import VersionDrift.Proofs.Run.Effect

/-!
# Sequences of runs

Runs follow each other on the disk that the one before left. A disk is settled once
its manifest reads as the version of the header: every run then agrees and changes
nothing. A disk is stuck when no sync run succeeds on it. A check run leaves the disk
as it was, and a sync run leaves it settled or stuck.
-/

set_option autoImplicit false

namespace VersionDrift.Disk

/-- One run of a sequence: what it was asked for, what it returned and the disk it left. -/
structure Step where
  mode : Mode
  wantsDiff : Bool
  result : Except Failure Outcome
  disk : Disk

def stepOf (s : Settings) (d : Disk) (mode : Mode) (wantsDiff : Bool) : Step :=
  ⟨mode, wantsDiff, (d.run s mode wantsDiff).1, (d.run s mode wantsDiff).2⟩

@[simp] def history (s : Settings) : Disk → List (Mode × Bool) → List Step
  | _, [] => []
  | d, (mode, wantsDiff) :: calls =>
    stepOf s d mode wantsDiff :: history s (stepOf s d mode wantsDiff).disk calls

def Step.isUpdate (st : Step) : Bool :=
  match st.result with
  | .ok (.updated _ _ _) => true
  | _ => false

def HeaderStates (s : Settings) (d : Disk) (v : Triple) : Prop :=
  ∃ header, d.read s.headerPath = .ok header ∧ (MarkerSet.ofStem s.stem).read header = .ok v

/-- The header states `v`, and so does the manifest. -/
def Settled (s : Settings) (d : Disk) (v : Triple) : Prop :=
  HeaderStates s d v ∧ ∃ source m, d.read s.manifestPath = .ok source ∧
    Manifest.load source = .ok m ∧ m.version = v.dotted

def Stuck (s : Settings) (d : Disk) : Prop :=
  ∀ wantsDiff, ∃ f, d.run s .sync wantsDiff = (.error f, d)

variable {s : Settings} {d d' : Disk}

theorem HeaderStates.of_read {v : Triple} (h : HeaderStates s d v)
    (hsame : d'.read s.headerPath = d.read s.headerPath) : HeaderStates s d' v := by
  obtain ⟨header, hread, hversion⟩ := h
  exact ⟨header, by rw [hsame, hread], hversion⟩

theorem decision_of_read {header source : Text} {v : Triple} {m : Manifest}
    (hheader : d.read s.headerPath = .ok header)
    (hversion : (MarkerSet.ofStem s.stem).read header = .ok v)
    (hsource : d.read s.manifestPath = .ok source) (hm : Manifest.load source = .ok m)
    (mode : Mode) (wantsDiff : Bool) : d.decision s mode wantsDiff =
      (Plan.make (requestOf s mode wantsDiff) v.dotted m).mapError
        (.ofManifest s.manifestPath) := by
  simp only [decision, readFile, Run.headerVersion, Run.manifestOf, hheader, hversion, hsource, hm,
    Except.mapError, ok_bind]
  rfl

theorem Settled.run {v : Triple} (h : Settled s d v) (mode : Mode) (wantsDiff : Bool) :
    d.run s mode wantsDiff = (.ok (.synced v.dotted), d) := by
  obtain ⟨⟨header, hheader, hversion⟩, source, m, hsource, hm, hv⟩ := h
  have hmake : Plan.make (requestOf s mode wantsDiff) v.dotted m =
      .ok ⟨.synced v.dotted, none⟩ := by
    rw [Plan.make, if_pos hv.symm, hv]
  rw [run_eq, decision_of_read hheader hversion hsource hm, hmake]
  rfl

theorem run_sync_ok {wantsDiff : Bool} {o : Outcome}
    (h : d.run s .sync wantsDiff = (.ok o, d')) (wantsDiff' : Bool) :
    ∃ o', d.run s .sync wantsDiff' = (.ok o', d') := by
  rcases run_cases d s .sync wantsDiff with ⟨f, hrun⟩ | ⟨header, v, before, m, hheader, hversion,
    hbefore, hm, ⟨hv, hrun⟩ | ⟨-, hmode, -⟩ | ⟨hne, -, new, diff, l, d₁, hnew, -, -, hrun⟩⟩
  · rw [hrun] at h
    cases h
  · have hsettled : Settled s d v := ⟨⟨header, hheader, hversion⟩, before, m, hbefore, hm, hv.symm⟩
    rw [hrun] at h
    cases h
    exact ⟨_, hsettled.run .sync wantsDiff'⟩
  · cases hmode
  · have hdecision (w : Bool) : d.decision s .sync w =
        .ok ⟨.updated m.version v.dotted (Plan.diffOf (requestOf s .sync w) m new), some new⟩ := by
      rw [decision_of_read hheader hversion hbefore hm]
      simp only [Plan.make, if_neg hne, requestOf, hnew]
      rfl
    rw [run_eq, hdecision] at h ⊢
    unfold carryOut at h ⊢
    dsimp only at h ⊢
    split at h
    · cases h
      exact ⟨_, rfl⟩
    · cases h

/-- A sync run that succeeds leaves a settled disk, unless it has changed the header. -/
theorem settled_of_run_sync {wantsDiff : Bool} {o : Outcome}
    (h : d.run s .sync wantsDiff = (.ok o, d'))
    (hsame : d'.read s.headerPath = d.read s.headerPath) :
    ∃ v, HeaderStates s d v ∧ Settled s d' v := by
  rcases run_cases d s .sync wantsDiff with ⟨f, hrun⟩ | ⟨header, v, before, m, hheader, hversion,
    hbefore, hm, ⟨hv, hrun⟩ | ⟨-, hmode, -⟩ |
      ⟨hne, -, new, diff, l, d₁, hnew, hl, hexchanged, hrun⟩⟩
  · rw [hrun] at h
    cases h
  · rw [hrun] at h
    cases h
    exact ⟨v, ⟨header, hheader, hversion⟩, ⟨header, hheader, hversion⟩, before, m, hbefore, hm,
      hv.symm⟩
  · cases hmode
  · rw [hrun] at h
    cases h
    have hstates : HeaderStates s d v := ⟨header, hheader, hversion⟩
    obtain ⟨-, -, -, -, hload, hnewVersion⟩ := Manifest.rewriteWith_eq_ok hnew
    exact ⟨v, hstates, hstates.of_read hsame, new.source, new, hexchanged.read hl, hload,
      hnewVersion⟩

theorem stuck_of_run_sync {wantsDiff : Bool} {f : Failure}
    (h : d.run s .sync wantsDiff = (.error f, d')) : d' = d ∧ Stuck s d := by
  have hunchanged (w : Bool) {e : Failure} {d₁ : Disk} (h : d.run s .sync w = (.error e, d₁)) :
      d₁ = d := by
    have heffect := run_effect d s .sync w
    rw [h] at heffect
    exact heffect
  refine ⟨hunchanged wantsDiff h, fun w => ?_⟩
  cases hw : d.run s .sync w with
  | mk result d₁ =>
    cases result with
    | error e => exact ⟨e, by rw [hunchanged w hw]⟩
    | ok o =>
      obtain ⟨o', ho'⟩ := run_sync_ok hw wantsDiff
      rw [ho'] at h
      cases h

theorem isUpdate_stepOf_check (s : Settings) (d : Disk) (wantsDiff : Bool) :
    (stepOf s d .check wantsDiff).isUpdate = false ∧ (stepOf s d .check wantsDiff).disk = d := by
  have heffect := run_effect d s .check wantsDiff
  unfold Step.isUpdate stepOf
  cases hrun : d.run s .check wantsDiff with
  | mk result d₁ =>
    rw [hrun] at heffect
    dsimp only
    split
    · cases heffect.1
    · next hne =>
      refine ⟨rfl, ?_⟩
      split at heffect
      · next heq => exact absurd (congrArg Prod.fst heq) (hne _ _ _)
      · next heq =>
        cases heq
        exact heffect

theorem Settled.history {v : Triple} (h : Settled s d v) (calls : List (Mode × Bool)) :
    ∀ st ∈ history s d calls, st.result = .ok (.synced v.dotted) ∧ st.disk = d := by
  induction calls with
  | nil => simp
  | cons call calls ih =>
    obtain ⟨mode, wantsDiff⟩ := call
    intro st hst
    have hrun := h.run mode wantsDiff
    have hfirst : stepOf s d mode wantsDiff = ⟨mode, wantsDiff, .ok (.synced v.dotted), d⟩ := by
      rw [stepOf, hrun]
    rw [Disk.history, hfirst] at hst
    rcases List.mem_cons.mp hst with rfl | hst
    · exact ⟨rfl, rfl⟩
    · exact ih st hst

theorem Stuck.history (h : Stuck s d) (calls : List (Mode × Bool)) :
    ∀ st ∈ history s d calls, st.isUpdate = false ∧ (st.mode = .sync → st.result.isOk = false) := by
  induction calls with
  | nil => simp
  | cons call calls ih =>
    obtain ⟨mode, wantsDiff⟩ := call
    intro st hst
    cases mode with
    | check =>
      obtain ⟨hupdate, hdisk⟩ := isUpdate_stepOf_check s d wantsDiff
      rw [Disk.history, hdisk] at hst
      rcases List.mem_cons.mp hst with rfl | hst
      · exact ⟨hupdate, fun hmode => by cases hmode⟩
      · exact ih st hst
    | sync =>
      obtain ⟨f, hrun⟩ := h wantsDiff
      have hfirst : stepOf s d .sync wantsDiff = ⟨.sync, wantsDiff, .error f, d⟩ := by
        rw [stepOf, hrun]
      rw [Disk.history, hfirst] at hst
      rcases List.mem_cons.mp hst with rfl | hst
      · exact ⟨rfl, fun _ => rfl⟩
      · exact ih st hst

/-- What one run can do to a sequence, as long as the header reads as before. -/
theorem stepOf_cases (mode : Mode) (wantsDiff : Bool)
    (hsame : (stepOf s d mode wantsDiff).disk.read s.headerPath = d.read s.headerPath) :
    (mode = .check ∧ (stepOf s d mode wantsDiff).isUpdate = false ∧
      (stepOf s d mode wantsDiff).disk = d) ∨
    (mode = .sync ∧ ∃ v, HeaderStates s d v ∧ Settled s (stepOf s d mode wantsDiff).disk v) ∨
    (mode = .sync ∧ (stepOf s d mode wantsDiff).result.isOk = false ∧
      (stepOf s d mode wantsDiff).isUpdate = false ∧ Stuck s (stepOf s d mode wantsDiff).disk) := by
  cases mode with
  | check => exact .inl ⟨rfl, isUpdate_stepOf_check s d wantsDiff⟩
  | sync =>
    cases hrun : d.run s .sync wantsDiff with
    | mk result d₁ =>
      have hstep : stepOf s d .sync wantsDiff = ⟨.sync, wantsDiff, result, d₁⟩ := by
        rw [stepOf, hrun]
      rw [hstep] at hsame ⊢
      cases result with
      | ok o => exact .inr (.inl ⟨rfl, settled_of_run_sync hrun hsame⟩)
      | error f =>
        obtain ⟨rfl, hstuck⟩ := stuck_of_run_sync hrun
        exact .inr (.inr ⟨rfl, rfl, rfl, hstuck⟩)

def HeaderKept (s : Settings) (d : Disk) (calls : List (Mode × Bool)) : Prop :=
  ∀ st ∈ history s d calls, st.disk.read s.headerPath = d.read s.headerPath

theorem HeaderKept.cons {mode : Mode} {wantsDiff : Bool} {calls : List (Mode × Bool)}
    (h : HeaderKept s d ((mode, wantsDiff) :: calls)) :
    (stepOf s d mode wantsDiff).disk.read s.headerPath = d.read s.headerPath ∧
      HeaderKept s (stepOf s d mode wantsDiff).disk calls := by
  have hfirst := h (stepOf s d mode wantsDiff) (by simp)
  refine ⟨hfirst, fun st hst => ?_⟩
  rw [hfirst]
  exact h st (by simp [hst])

theorem history_settles {calls : List (Mode × Bool)} (hheader : HeaderKept s d calls)
    {earlier later : List Step} {st : Step} (h : history s d calls = earlier ++ st :: later)
    (hmode : st.mode = .sync) (hok : st.result.isOk = true) :
    ∃ v, HeaderStates s d v ∧
      ∀ st' ∈ later, st'.result = .ok (.synced v.dotted) ∧ st'.disk = st.disk := by
  induction calls generalizing d earlier with
  | nil => simp at h
  | cons call calls ih =>
    obtain ⟨mode, wantsDiff⟩ := call
    obtain ⟨hsame, hrest⟩ := hheader.cons
    rw [history] at h
    cases earlier with
    | nil =>
      obtain ⟨rfl, rfl⟩ := List.cons.inj h
      rcases stepOf_cases mode wantsDiff hsame with ⟨rfl, -, -⟩ | ⟨-, v, hstates, hsettled⟩ |
        ⟨-, herror, -, -⟩
      · cases hmode
      · exact ⟨v, hstates, hsettled.history calls⟩
      · rw [herror] at hok
        cases hok
    | cons first earlier =>
      obtain ⟨v, hstates, hlater⟩ := ih hrest (List.cons.inj h).2
      exact ⟨v, hstates.of_read hsame.symm, hlater⟩

theorem history_update {calls : List (Mode × Bool)} (hheader : HeaderKept s d calls)
    {earlier later : List Step} {st : Step} (h : history s d calls = earlier ++ st :: later)
    (hupdate : st.isUpdate = true) : st.mode = .sync ∧ ∀ st' ∈ earlier, st'.mode = .check := by
  induction calls generalizing d earlier with
  | nil => simp at h
  | cons call calls ih =>
    obtain ⟨mode, wantsDiff⟩ := call
    obtain ⟨hsame, hrest⟩ := hheader.cons
    rw [history] at h
    cases earlier with
    | nil =>
      obtain ⟨rfl, rfl⟩ := List.cons.inj h
      refine ⟨?_, by simp⟩
      rcases stepOf_cases mode wantsDiff hsame with ⟨-, hnone, -⟩ | ⟨hmode, -⟩ | ⟨hmode, -⟩
      · rw [hnone] at hupdate
        cases hupdate
      · exact hmode
      · exact hmode
    | cons first earlier =>
      obtain ⟨rfl, htail⟩ := List.cons.inj h
      have hmem : st ∈ history s (stepOf s d mode wantsDiff).disk calls := by
        rw [htail]
        simp
      rcases stepOf_cases mode wantsDiff hsame with ⟨rfl, -, -⟩ | ⟨-, v, -, hsettled⟩ |
        ⟨-, -, -, hstuck⟩
      · obtain ⟨hmode, hearlier⟩ := ih hrest htail
        refine ⟨hmode, fun st' hst' => ?_⟩
        rcases List.mem_cons.mp hst' with rfl | hst'
        · rfl
        · exact hearlier st' hst'
      · have hresult := (hsettled.history calls st hmem).1
        rw [Step.isUpdate, hresult] at hupdate
        cases hupdate
      · rw [(hstuck.history calls st hmem).1] at hupdate
        cases hupdate

theorem history_updates_le {calls : List (Mode × Bool)} (hheader : HeaderKept s d calls) :
    (history s d calls).countP Step.isUpdate ≤ 1 := by
  induction calls generalizing d with
  | nil => simp
  | cons call calls ih =>
    obtain ⟨mode, wantsDiff⟩ := call
    obtain ⟨hsame, hrest⟩ := hheader.cons
    rw [history, List.countP_cons]
    rcases stepOf_cases mode wantsDiff hsame with ⟨-, hnone, -⟩ | ⟨-, v, -, hsettled⟩ |
      ⟨-, -, hnone, hstuck⟩
    · simpa [hnone] using ih hrest
    · have hzero : (history s (stepOf s d mode wantsDiff).disk calls).countP Step.isUpdate = 0 := by
        apply List.countP_eq_zero.mpr
        intro st hst
        simp [Step.isUpdate, (hsettled.history calls st hst).1]
      rw [hzero]
      split <;> omega
    · have hzero : (history s (stepOf s d mode wantsDiff).disk calls).countP Step.isUpdate = 0 := by
        apply List.countP_eq_zero.mpr
        intro st hst
        simp [(hstuck.history calls st hst).1]
      simp [hzero, hnone]

/-- Sequences of runs converge. After a sync run that succeeds every run agrees on the version of
the header and changes nothing; so at most one run updates, and it is the first sync run. -/
theorem history_converges (s : Settings) (d : Disk) (calls : List (Mode × Bool))
    (hheader : HeaderKept s d calls) :
    (∀ earlier st later, history s d calls = earlier ++ st :: later → st.mode = .sync →
      st.result.isOk = true → ∃ v, HeaderStates s d v ∧
        ∀ st' ∈ later, st'.result = .ok (.synced v.dotted) ∧ st'.disk = st.disk) ∧
    (history s d calls).countP Step.isUpdate ≤ 1 ∧
    (∀ earlier st later, history s d calls = earlier ++ st :: later → st.isUpdate = true →
      st.mode = .sync ∧ ∀ st' ∈ earlier, st'.mode = .check) :=
  ⟨fun _ _ _ h => history_settles hheader h, history_updates_le hheader,
    fun _ _ _ h => history_update hheader h⟩

theorem run_read_of_ne {path : Text} {l l' : Location} (hl : d.resolve path = .ok l)
    (hl' : d.resolve s.manifestPath = .ok l') (hne : l ≠ l') (mode : Mode) (wantsDiff : Bool) :
    SameTree d (d.run s mode wantsDiff).2 ∧ (d.run s mode wantsDiff).2.read path = d.read path := by
  have hrefl : SameTree d d := ⟨rfl, fun _ => .inl rfl⟩
  rcases run_cases d s mode wantsDiff with ⟨f, hrun⟩ | ⟨header, v, before, m, -, -, -, -,
    ⟨-, hrun⟩ | ⟨-, -, mismatch, diff, hrun⟩ | ⟨-, -, new, diff, k, d₁, -, hk, hexchanged, hrun⟩⟩
  · rw [hrun]
    exact ⟨hrefl, rfl⟩
  · rw [hrun]
    exact ⟨hrefl, rfl⟩
  · rw [hrun]
    exact ⟨hrefl, rfl⟩
  · rw [hrun]
    obtain rfl := Except.ok.inj (hk.symm.trans hl')
    have hresolve : d₁.resolve path = .ok l := by rw [hexchanged.sameTree.resolve, hl]
    refine ⟨hexchanged.sameTree, ?_⟩
    simp only [Disk.read, hresolve, hl, ok_bind, hexchanged.others l hne]

theorem HeaderKept.of_resolve {l l' : Location} (hl : d.resolve s.headerPath = .ok l)
    (hl' : d.resolve s.manifestPath = .ok l') (hne : l ≠ l') (calls : List (Mode × Bool)) :
    HeaderKept s d calls := by
  induction calls generalizing d with
  | nil => simp [HeaderKept]
  | cons call calls ih =>
    obtain ⟨mode, wantsDiff⟩ := call
    obtain ⟨htree, hread⟩ := run_read_of_ne hl hl' hne mode wantsDiff
    intro st hst
    rcases List.mem_cons.mp hst with rfl | hst
    · exact hread
    · have hrest := ih (d := (d.run s mode wantsDiff).2) (by rw [htree.resolve, hl])
        (by rw [htree.resolve, hl']) st hst
      rw [hrest, hread]

theorem history_converges_three_runs :
    let s : Settings := ⟨"h".toList, "m".toList, "V".toList⟩
    let header := "#define V_MAJOR 1\n#define V_MINOR 2\n#define V_PATCH 3\n"
    let d : Disk := ⟨[([['h']], .file 0o644 header.toUTF8),
      ([['m']], .file 0o644 "context:\n  version: 1.0.0\n".toUTF8)], []⟩
    let calls := [(Mode.check, false), (Mode.sync, true), (Mode.sync, false)]
    HeaderKept s d calls ∧ (history s d calls).countP Step.isUpdate ≤ 1 ∧
      (history s d calls).map Step.isUpdate = [false, true, false] := by
  intro s header d calls
  have hl : d.resolve s.headerPath = .ok [['h']] := by rfl
  have hl' : d.resolve s.manifestPath = .ok [['m']] := by rfl
  have hheader : HeaderKept s d calls := .of_resolve hl hl' (by decide) calls
  exact ⟨hheader, (history_converges s d calls hheader).2.1, by decide +kernel⟩

end VersionDrift.Disk

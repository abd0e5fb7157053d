import CodeCache.Proofs.Selection.Visiting

/-!
# Which version is selected

As long as every entry of the metaspace is resolved in one way only, every version
of an intact chain has its state. The selected one is what the policy chooses among
the states, as if all of them were at hand. Unless versions are drawn at random,
leaving out those that cannot be selected anyway makes the scan longer or shorter,
and changes nothing else.
-/

namespace CodeCache

namespace RevivePolicy

theorem choose_nil (p : RevivePolicy) (draw : Nat) : p.choose draw [] = none := by
  cases p with
  | first | random | appointed => rfl

theorem choose_congr {p : RevivePolicy} (hp : p ≠ .random) (draw draw' : Nat)
    (candidates : List VersionState) :
    p.choose draw candidates = p.choose draw' candidates := by
  cases p with
  | random => exact absurd rfl hp
  | first | appointed => rfl

theorem choose_append {p : RevivePolicy} (draw : Nat) {version : Nat}
    {found more : List VersionState}
    (hends : p.scansOn version found.length = false)
    (hmore : ∀ state ∈ more, version < state.version) :
    p.choose draw (found ++ more) = p.choose draw found := by
  cases p with
  | random => cases hends
  | first =>
      cases found with
      | nil => cases hends
      | cons state rest => rfl
  | appointed n =>
      cases found with
      | nil =>
          change (decide (version < n) || true) = false at hends
          rw [Bool.or_true] at hends
          cases hends
      | cons state rest =>
          have hn : n ≤ version := by
            unfold scansOn at hends
            rw [Bool.or_eq_false_iff, decide_eq_false_iff_not] at hends
            exact Nat.le_of_not_lt hends.1
          have hnone : more.find? (·.version == n) = none := by
            rw [List.find?_eq_none]
            intro other hother heq
            have hlater := hmore other hother
            have hsame : other.version = n := eq_of_beq heq
            omega
          change (List.find? (·.version == n) (state :: rest ++ more)).or
            (some state) = (List.find? (·.version == n) (state :: rest)).or
              (some state)
          rw [List.find?_append, hnone, Option.or_none]

end RevivePolicy

namespace Selection

variable {ctx : ReviveContext} {o : Options} {keys : List MetaKey}
  {inv : MetaSpace → Prop} {usable : Nat → Bool}

theorem Visits.state_eq {version : Nat} {s : Scan}
    {blobs : List (Except Error Blob)} {space : MetaSpace} {visit : Visit}
    (h : Visits ctx o usable version s blobs space visit)
    (hinv : ctx.ResolvesOneWay inv) (hspace : inv space) {state : VersionState}
    (hstate : Settles inv (checkBlob ctx o visit.version visit.blob)
      (.ok state)) :
    visit.state = state := by
  have hcheck : ∀ {version : Nat} {b : Blob} {space space' : MetaSpace}
      {state : VersionState}, inv space →
      checkBlob ctx o version b space = .ok state space' →
      inv space' ∧ ∀ state',
        Settles inv (checkBlob ctx o version b) (.ok state') → state = state' := by
    intro version b space space' state hspace hrun
    rcases exists_settles hinv hspace o version b with ⟨other, hother, _⟩
    rcases hother space hspace with ⟨after, hafter, hrun'⟩
    rw [hrun] at hrun'
    cases hrun'
    refine ⟨hafter, ?_⟩
    intro state' hstate'
    cases hother.unique hstate' hspace
    rfl
  induction h with
  | now husable hrun => exact (hcheck hspace hrun).2 state hstate
  | later husable hrun hon h ih => exact ih (hcheck hspace hrun).1 hstate
  | skipped husable h ih => exact ih hspace hstate

def selectable (usable : Nat → Bool) (stateOf : Nat → Blob → VersionState)
    (version : Nat) (blobs : List Blob) : List VersionState :=
  (blobs.mapIdx fun i b => stateOf (version + i) b).filter fun state =>
    usable state.version && state.isValid

section

variable {stateOf : Nat → Blob → VersionState}

theorem selectable_cons (hversion : ∀ v b, (stateOf v b).version = v)
    (version : Nat) (b : Blob) (blobs : List Blob) :
    selectable usable stateOf version (b :: blobs) =
      (if usable version && (stateOf version b).isValid then
        [stateOf version b] else []) ++
        selectable usable stateOf (version + 1) blobs := by
  have hshift : (fun i b => stateOf (version + (i + 1)) b) =
      fun i b => stateOf (version + 1 + i) b := by
    funext i b
    rw [show version + (i + 1) = version + 1 + i by omega]
  unfold selectable
  rw [List.mapIdx_cons, hshift, List.filter_cons, Nat.add_zero, hversion]
  split <;> rfl

theorem mem_selectable (hversion : ∀ v b, (stateOf v b).version = v)
    {version : Nat} {blobs : List Blob} {state : VersionState} :
    state ∈ selectable usable stateOf version blobs ↔
      ∃ i b, blobs[i]? = some b ∧ state = stateOf (version + i) b ∧
        usable (version + i) = true ∧ state.isValid = true := by
  unfold selectable
  rw [List.mem_filter, List.mem_mapIdx, Bool.and_eq_true]
  constructor
  · rintro ⟨⟨i, hi, rfl⟩, husable, hvalid⟩
    rw [hversion] at husable
    exact ⟨i, _, List.getElem?_eq_getElem hi, rfl, husable, hvalid⟩
  · rintro ⟨i, b, hb, rfl, husable, hvalid⟩
    rcases List.getElem?_eq_some_iff.mp hb with ⟨hi, rfl⟩
    rw [hversion]
    exact ⟨⟨i, hi, rfl⟩, husable, hvalid⟩

/-- A scan of an intact chain always comes to the same end, and the policy chooses
as if all versions had been checked. -/
theorem scan_settles
    (hstate : ∀ v b, Settles inv (checkBlob ctx o v b) (.ok (stateOf v b)))
    (hversion : ∀ v b, (stateOf v b).version = v) (draw : Nat) (version : Nat)
    (blobs : List Blob) (s : Scan) :
    ∃ s', Settles inv (scan ctx o usable version s (blobs.map .ok)) (.ok s') ∧
      o.revivePolicy.choose draw s'.candidates = o.revivePolicy.choose draw
        (s.candidates ++ selectable usable stateOf version blobs) := by
  induction blobs generalizing version s with
  | nil =>
      refine ⟨s, .of_pure s, ?_⟩
      unfold selectable
      rw [List.mapIdx_nil, List.filter_nil, List.append_nil]
  | cons b bs ih =>
      rw [selectable_cons hversion]
      cases husable : usable version with
      | false =>
          rcases ih (version + 1) s.count with ⟨s', hsettles, hchoose⟩
          refine ⟨s', ?_, hchoose⟩
          refine Settles.of_bind_ok (.of_pure b) ?_
          rw [husable]
          exact hsettles
      | true =>
          have hfound : (s.count.record (stateOf version b)).candidates =
              s.candidates ++ (if (stateOf version b).isValid then
                [stateOf version b] else []) := by
            rcases s.count.record_cases (stateOf version b) with
              ⟨hvalid, hrecord⟩ | ⟨hfails, hrecord⟩ | ⟨hinvalid, hrecord⟩
            · rw [hrecord, hvalid]
              rfl
            · rw [hrecord, hfails.isValid_eq]
              exact (List.append_nil _).symm
            · rw [hrecord, hinvalid]
              exact (List.append_nil _).symm
          rw [Bool.true_and, ← List.append_assoc, ← hfound]
          cases hon : o.revivePolicy.scansOn version
              (s.count.record (stateOf version b)).candidates.length with
          | true =>
              rcases ih (version + 1) (s.count.record (stateOf version b)) with
                ⟨s', hsettles, hchoose⟩
              refine ⟨s', ?_, hchoose⟩
              refine Settles.of_bind_ok (.of_pure b) ?_
              rw [husable, if_pos rfl]
              refine (hstate version b).of_bind_ok ?_
              show Settles _ (if o.revivePolicy.scansOn version
                (s.count.record (stateOf version b)).candidates.length then _
                else _ : InSpace Scan) _
              rw [hon]
              exact hsettles
          | false =>
              refine ⟨{ s.count.record (stateOf version b) with
                scannedAll := (bs.map Except.ok : List (Except Error Blob)).isEmpty },
                ?_, ?_⟩
              · refine Settles.of_bind_ok (.of_pure b) ?_
                rw [husable, if_pos rfl]
                refine (hstate version b).of_bind_ok ?_
                show Settles _ (if o.revivePolicy.scansOn version
                  (s.count.record (stateOf version b)).candidates.length then _
                  else _ : InSpace Scan) _
                rw [hon]
                exact .of_pure _
              · refine (RevivePolicy.choose_append draw hon ?_).symm
                intro other hother
                rcases (mem_selectable hversion).mp hother with
                  ⟨i, c, -, rfl, -⟩
                rw [hversion]
                omega

end

theorem selected_conclude {s' : Scan} {draw : Nat}
    (h : s'.allUnusable = true → s'.candidates = []) :
    (conclude o draw s').selected = o.revivePolicy.choose draw s'.candidates := by
  unfold conclude
  split
  · rename_i hdone
    rw [h (Bool.and_eq_true_iff.mp hdone).1, RevivePolicy.choose_nil]
  · rfl

/-- The version that is selected from an intact chain is the one that the policy
chooses among all that may be used and pass. -/
theorem select_settles {stateOf : Nat → Blob → VersionState}
    (hstate : ∀ v b, Settles inv (checkBlob ctx o v b) (.ok (stateOf v b)))
    (hversion : ∀ v b, (stateOf v b).version = v) (draw : Nat)
    {space : CodeSpace} {head : UInt32} {blobs : List Blob}
    (hchain : space.versions head = blobs.map .ok) {before : MetaSpace}
    (hbefore : inv before) :
    ∃ selection, Settles inv (select ctx o space head usable draw)
        (.ok selection) ∧
      selection.selected = o.revivePolicy.choose draw
        (selectable usable stateOf 0 blobs) := by
  rcases scan_settles hstate hversion draw 0 blobs {} with
    ⟨s', hsettles, hchoose⟩
  have hselect : Settles inv (select ctx o space head usable draw)
      (.ok (conclude o draw s')) := by
    unfold select
    rw [hchain]
    exact hsettles.of_bind_ok (.of_pure _)
  refine ⟨conclude o draw s', hselect, ?_⟩
  rcases hsettles before hbefore with ⟨after, _, hrun⟩
  rw [selected_conclude fun hall => (nothing_of_allUnusable hrun hall).2, hchoose]
  rfl

/-!
## In a space with given keys
-/

inductive Outcomes (ctx : ReviveContext) (o : Options) (keys : List MetaKey) :
    Nat → List Blob → List VersionState → Prop where
  | nil {version : Nat} : Outcomes ctx o keys version [] []
  | cons {version : Nat} {b : Blob} {state : VersionState} {bs : List Blob}
      {states : List VersionState} (hstate : Checks ctx o keys version b state)
      (hversion : state.version = version) (hoffset : state.offset = b.offset)
      (hrest : Outcomes ctx o keys (version + 1) bs states) :
      Outcomes ctx o keys version (b :: bs) (state :: states)

theorem exists_outcomes (ctx : ReviveContext) (o : Options)
    (keys : List MetaKey) (version : Nat) (blobs : List Blob) :
    ∃ states, Outcomes ctx o keys version blobs states := by
  induction blobs generalizing version with
  | nil => exact ⟨[], .nil⟩
  | cons b bs ih =>
      rcases exists_checks ctx o keys version b with
        ⟨state, hstate, hversion, hoffset⟩
      rcases ih (version + 1) with ⟨states, hrest⟩
      exact ⟨state :: states, .cons hstate hversion hoffset hrest⟩

namespace Outcomes

variable {version : Nat} {blobs : List Blob} {states : List VersionState}

theorem at_index (h : Outcomes ctx o keys version blobs states) {i : Nat}
    {b : Blob} (hb : blobs[i]? = some b) :
    ∃ state, states[i]? = some state ∧
      Checks ctx o keys (version + i) b state ∧ state.version = version + i := by
  induction h generalizing i with
  | nil => cases hb
  | @cons version _ state _ _ hstate hversion _ _ ih =>
      cases i with
      | zero =>
          cases hb
          exact ⟨state, rfl, hstate, hversion⟩
      | succ i =>
          rw [show version + (i + 1) = version + 1 + i by omega]
          exact ih hb

theorem at_state (h : Outcomes ctx o keys version blobs states) {i : Nat}
    {state : VersionState} (hstate : states[i]? = some state) :
    ∃ b, blobs[i]? = some b ∧ state.version = version + i ∧
      state.offset = b.offset ∧ Checks ctx o keys (version + i) b state := by
  induction h generalizing i with
  | nil => cases hstate
  | @cons version b first _ _ hfirst hversion hoffset _ ih =>
      cases i with
      | zero =>
          cases hstate
          exact ⟨b, rfl, hversion, hoffset, hfirst⟩
      | succ i =>
          rw [show version + (i + 1) = version + 1 + i by omega]
          exact ih hstate

theorem of_mem (h : Outcomes ctx o keys version blobs states)
    {state : VersionState} (hstate : state ∈ states) :
    ∃ i b, blobs[i]? = some b ∧ state.version = version + i ∧
      state.offset = b.offset ∧ Checks ctx o keys (version + i) b state := by
  rcases List.getElem?_of_mem hstate with ⟨i, hi⟩
  rcases h.at_state hi with ⟨b, hb⟩
  exact ⟨i, b, hb⟩

theorem selectable_eq {stateOf : Nat → Blob → VersionState}
    (hstate : ∀ v b, Checks ctx o keys v b (stateOf v b))
    (hversion : ∀ v b, (stateOf v b).version = v)
    (h : Outcomes ctx o keys version blobs states)
    (hleft : ∀ state ∈ states, usable state.version = false →
      state.isValid = false) :
    selectable usable stateOf version blobs = states.filter (·.isValid) := by
  induction h with
  | nil => rfl
  | @cons version b state bs states hfirst hnumber _ _ ih =>
      have hsame : stateOf version b = state := by
        cases (hstate version b).unique hfirst (leads_ofKeys ctx.host keys)
        rfl
      rw [selectable_cons hversion, ih fun other hother =>
        hleft other (List.mem_cons_of_mem state hother), hsame, List.filter_cons]
      cases husable : usable version with
      | true => cases state.isValid <;> rfl
      | false =>
          rw [hleft state List.mem_cons_self (hnumber ▸ husable)]
          rfl

theorem select_settles (h : Outcomes ctx o keys 0 blobs states)
    (hpolicy : o.revivePolicy ≠ .random) {space : CodeSpace} {head : UInt32}
    (hchain : space.versions head = blobs.map .ok)
    (hleft : ∀ state ∈ states, usable state.version = false →
      state.isValid = false) (draw : Nat) :
    ∃ selection, Settles (MetaSpace.Leads ctx.host keys)
        (select ctx o space head usable draw) (.ok selection) ∧
      ∀ draw', selection.selected =
        o.revivePolicy.choose draw' (states.filter (·.isValid)) := by
  choose stateOf hstate using exists_checks ctx o keys
  rcases Selection.select_settles (fun v b => (hstate v b).1)
    (fun v b => (hstate v b).2.1) draw hchain (leads_ofKeys ctx.host keys) with
    ⟨selection, hsettles, hselected⟩
  refine ⟨selection, hsettles, ?_⟩
  intro draw'
  rw [RevivePolicy.choose_congr hpolicy draw' draw, hselected,
    h.selectable_eq (fun v b => (hstate v b).1) (fun v b => (hstate v b).2.1)
      hleft]

end Outcomes

end Selection

end CodeCache

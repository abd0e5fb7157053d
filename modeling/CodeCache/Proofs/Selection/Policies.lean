import CodeCache.Blob.Emit
import CodeCache.Code.Assembler
import CodeCache.Host.World
import CodeCache.Proofs.Selection.Checked
import CodeCache.Proofs.Selection.Choosing
import CodeCache.Proofs.Store.Chains
import Mathlib.Order.Bounds.Defs

/-!
# What the policies promise

A version is valid when it may be used and passes its checks in the metaspace at
hand. A selection takes the valid version that its policy asks for. It finds none
only where there is none, and it gives up on the method only where no version of
the chain can ever become valid.
-/

namespace CodeCache

namespace RevivePolicy

/-- Where these versions are valid, the policy asks for this one, or for none. -/
def Picks (p : RevivePolicy) (valid : Nat → Prop) : Option Nat → Prop
  | none => ∀ v, ¬ valid v
  | some v =>
    match p with
    | first => IsLeast {w | valid w} v
    | random => valid v
    | appointed n => (valid n ∧ v = n) ∨ (¬ valid n ∧ IsLeast {w | valid w} v)

def Lists (candidates : List VersionState) (v : Nat) : Prop :=
  ∃ state ∈ candidates, state.version = v

theorem isLeast_head {state : VersionState} {rest : List VersionState}
    (h : (state :: rest).Pairwise (·.version < ·.version)) :
    IsLeast {v | Lists (state :: rest) v} state.version := by
  constructor
  · exact ⟨state, List.mem_cons_self, rfl⟩
  · rintro v ⟨other, hother, rfl⟩
    rcases List.mem_cons.mp hother with rfl | hrest
    · exact Nat.le_refl _
    · exact Nat.le_of_lt ((List.pairwise_cons.mp h).1 other hrest)

theorem picks_choose (p : RevivePolicy) (draw : Nat)
    {candidates : List VersionState}
    (h : candidates.Pairwise (·.version < ·.version)) :
    p.Picks (Lists candidates) ((p.choose draw candidates).map (·.version)) := by
  cases candidates with
  | nil =>
      rw [choose_nil]
      rintro v ⟨state, hstate, -⟩
      cases hstate
  | cons state rest =>
      cases p with
      | first => exact isLeast_head h
      | random =>
          have hlt : draw % (state :: rest).length < (state :: rest).length :=
            Nat.mod_lt _ (Nat.zero_lt_succ _)
          unfold choose
          rw [List.getElem?_eq_getElem hlt]
          exact ⟨_, List.getElem_mem hlt, rfl⟩
      | appointed n =>
          change Picks _ _ (Option.map _ (((state :: rest).find?
            (·.version == n)).or (some state)))
          cases hfind : (state :: rest).find? (·.version == n) with
          | some found =>
              have hmatch := List.find?_some hfind
              have hn : found.version = n := eq_of_beq hmatch
              have hlists : Lists (state :: rest) n :=
                ⟨found, List.mem_of_find?_eq_some hfind, hn⟩
              exact Or.inl (And.intro hlists hn)
          | none =>
              have hlists : ¬ Lists (state :: rest) n := by
                rintro ⟨other, hother, hn⟩
                exact List.find?_eq_none.mp hfind other hother
                  (beq_iff_eq.mpr hn)
              exact Or.inr (And.intro hlists (isLeast_head h))

end RevivePolicy

namespace Selection

section

variable (ctx : ReviveContext) (o : Options) (space : CodeSpace) (head : UInt32)
  (before : MetaSpace)

/-- Checking the version of the chain comes to the state, in the metaspace at
hand. -/
def ComesTo (v : Nat) (state : VersionState) : Prop :=
  ∃ b after, (space.versions head)[v]? = some (.ok b) ∧
    checkVersion ctx o space b.offset v before = .ok state after

/-- The version may be used, and passes its checks. -/
def ValidVersion (usable : Nat → Bool) (v : Nat) : Prop :=
  usable v = true ∧
    ∃ state, ComesTo ctx o space head before v state ∧ state.isValid = true

/-- The version does not pass its checks, and never will. -/
def LostVersion (v : Nat) : Prop :=
  ∃ state, ComesTo ctx o space head before v state ∧ state.FailsForGood

end

variable {ctx : ReviveContext} {o : Options} {space : CodeSpace} {head : UInt32}
  {before : MetaSpace} {usable : Nat → Bool} {inv : MetaSpace → Prop}
  {blobs : List Blob} {stateOf : Nat → Blob → VersionState}

theorem ComesTo.unique {v : Nat} {state state' : VersionState}
    (h : ComesTo ctx o space head before v state)
    (h' : ComesTo ctx o space head before v state') :
    state = state' := by
  rcases h with ⟨b, after, hat, hcheck⟩
  rcases h' with ⟨b', after', hat', hcheck'⟩
  rw [hat] at hat'
  cases hat'
  rw [hcheck] at hcheck'
  cases hcheck'
  rfl

theorem ValidVersion.not_lost {v : Nat}
    (h : ValidVersion ctx o space head before usable v) :
    ¬ LostVersion ctx o space head before v := by
  rcases h with ⟨-, state, hcomes, hvalid⟩
  rintro ⟨state', hcomes', hfails⟩
  have hinvalid := hfails.isValid_eq
  rw [← hcomes.unique hcomes', hvalid] at hinvalid
  cases hinvalid

theorem checkVersion_eq {offset : UInt32} {b : Blob}
    (hblob : space.blob offset = .ok b) (v : Nat) :
    checkVersion ctx o space offset v = checkBlob ctx o v b := by
  unfold checkVersion
  rw [hblob]
  rfl

theorem comesTo_iff (hchain : space.versions head = blobs.map .ok)
    (hstate : ∀ v b, Settles inv (checkBlob ctx o v b) (.ok (stateOf v b)))
    (hbefore : inv before) {v : Nat} {state : VersionState} :
    ComesTo ctx o space head before v state ↔
      ∃ b, blobs[v]? = some b ∧ stateOf v b = state := by
  have hblob : ∀ {b : Blob}, blobs[v]? = some b →
      checkVersion ctx o space b.offset v = checkBlob ctx o v b := by
    intro b hb
    have hmem : .ok b ∈ space.versions head := by
      rw [hchain]
      exact List.mem_map_of_mem (List.mem_of_getElem? hb)
    exact checkVersion_eq (CodeSpace.blob_of_mem_versions hmem) v
  unfold ComesTo
  rw [hchain]
  constructor
  · rintro ⟨b, after, hb, hrun⟩
    rw [List.getElem?_map, Option.map_eq_some_iff] at hb
    rcases hb with ⟨_, hb, heq⟩
    cases heq
    rw [hblob hb] at hrun
    rcases hstate v b before hbefore with ⟨after', -, hrun'⟩
    rw [hrun] at hrun'
    cases hrun'
    exact ⟨b, hb, rfl⟩
  · rintro ⟨b, hb, rfl⟩
    rcases hstate v b before hbefore with ⟨after, -, hrun⟩
    refine ⟨b, after, ?_, ?_⟩
    · rw [List.getElem?_map, hb]
      rfl
    · rw [hblob hb]
      exact hrun

theorem pairwise_selectable (hversion : ∀ v b, (stateOf v b).version = v)
    (version : Nat) (blobs : List Blob) :
    (selectable usable stateOf version blobs).Pairwise
      (·.version < ·.version) := by
  unfold selectable
  refine List.Pairwise.filter _ (List.pairwise_iff_getElem.mpr ?_)
  intro i j hi hj hlt
  rw [List.getElem_mapIdx, List.getElem_mapIdx, hversion, hversion]
  omega

theorem lists_selectable (hchain : space.versions head = blobs.map .ok)
    (hstate : ∀ v b, Settles inv (checkBlob ctx o v b) (.ok (stateOf v b)))
    (hversion : ∀ v b, (stateOf v b).version = v) (hbefore : inv before) :
    RevivePolicy.Lists (selectable usable stateOf 0 blobs) =
      ValidVersion ctx o space head before usable := by
  funext v
  refine propext ?_
  constructor
  · rintro ⟨state, hmem, rfl⟩
    rcases (mem_selectable hversion).mp hmem with
      ⟨i, b, hb, rfl, husable, hvalid⟩
    rw [hversion]
    rw [Nat.zero_add] at husable hvalid ⊢
    exact ⟨husable, _, (comesTo_iff hchain hstate hbefore).mpr ⟨b, hb, rfl⟩,
      hvalid⟩
  · rintro ⟨husable, state, hcomes, hvalid⟩
    rcases (comesTo_iff hchain hstate hbefore).mp hcomes with ⟨b, hb, rfl⟩
    refine ⟨stateOf v b, (mem_selectable hversion).mpr ⟨v, b, hb, ?_, ?_, hvalid⟩,
      hversion v b⟩
    · rw [Nat.zero_add]
    · rw [Nat.zero_add]
      exact husable

theorem Visits.comesTo (hinv : ctx.ResolvesOneWay inv)
    (hchain : space.versions head = blobs.map .ok)
    (hstate : ∀ v b, Settles inv (checkBlob ctx o v b) (.ok (stateOf v b)))
    (hbefore : inv before) {visit : Visit}
    (h : Visits ctx o usable 0 {} (space.versions head) before visit) :
    ComesTo ctx o space head before visit.version visit.state := by
  rw [h.state_eq hinv hbefore (hstate visit.version visit.blob)]
  rcases h.mem with ⟨i, hversion, hblob⟩
  rw [Nat.zero_add] at hversion
  rw [hchain, List.getElem?_map, Option.map_eq_some_iff] at hblob
  rcases hblob with ⟨b, hb, heq⟩
  cases heq
  refine (comesTo_iff hchain hstate hbefore).mpr ⟨visit.blob, ?_, rfl⟩
  rw [hversion]
  exact hb

/-- A selection from an intact chain does what its policy promises, whatever was
resolved before. -/
theorem select_meets_policy (ctx : ReviveContext) (o : Options)
    {space : CodeSpace} {head : UInt32} {blobs : List Blob}
    (hchain : space.chain head = .ok blobs) (usable : Nat → Bool) (draw : Nat)
    (before : MetaSpace) :
    ∃ selection after,
      select ctx o space head usable draw before = .ok selection after ∧
      (∀ state, selection.selected = some state →
        ComesTo ctx o space head before state.version state) ∧
      o.revivePolicy.Picks (ValidVersion ctx o space head before usable)
        (selection.selected.map (·.version)) ∧
      (selection.disable = true ↔ ∀ v < blobs.length,
        usable v = false ∨ LostVersion ctx o space head before v) ∧
      ∀ v ∈ selection.unusable,
        usable v = true ∧ LostVersion ctx o space head before v := by
  have hversions := CodeSpace.chain_eq_ok_iff.mp hchain
  have hinv :=
    ctx.resolvesOneWay_of_answers (before.answers ctx.host ctx.epoch)
  choose stateOf hstateOf using exists_settles hinv rfl o
  have hstate := fun v b => (hstateOf v b).1
  have hversion := fun v b => (hstateOf v b).2.1
  have hvisits := @Visits.comesTo ctx o space head before usable _ blobs stateOf
    hinv hversions hstate rfl
  rcases select_settles hstate hversion draw hversions rfl with
    ⟨selection, hsettles, hselected⟩
  rcases hsettles before rfl with ⟨after, -, hrun⟩
  refine ⟨selection, after, hrun, ?_, ?_, ?_, ?_⟩
  · intro state hsome
    rw [hselected] at hsome
    rcases (mem_selectable hversion).mp (mem_of_choose hsome) with
      ⟨i, b, hb, rfl, -⟩
    rw [Nat.zero_add, hversion]
    exact (comesTo_iff hversions hstate rfl).mpr ⟨b, hb, rfl⟩
  · rw [hselected, ← lists_selectable hversions hstate hversion rfl]
    exact RevivePolicy.picks_choose _ draw (pairwise_selectable hversion 0 blobs)
  · constructor
    · intro hdisable v hlt
      have hb : (space.versions head)[v]? = some (.ok blobs[v]) := by
        rw [hversions, List.getElem?_map, List.getElem?_eq_getElem hlt]
        rfl
      rcases of_disable_select hrun hdisable hb with hleft |
        ⟨visit, hvisit, rfl, -, hfails⟩
      · exact Or.inl hleft
      · exact Or.inr ⟨visit.state, hvisits hvisit, hfails⟩
    · intro hall
      refine disable_of_failsForGood hrun ?_
      intro visit hvisit
      rcases hvisit.mem with ⟨i, hnumber, hblob⟩
      rw [hversions, List.getElem?_map] at hblob
      rcases Option.map_eq_some_iff.mp hblob with ⟨b, hb, -⟩
      rcases List.getElem?_eq_some_iff.mp hb with ⟨hlt, -⟩
      rw [Nat.zero_add] at hnumber
      rcases hall visit.version (hnumber ▸ hlt) with hleft |
        ⟨state, hcomes, hfails⟩
      · rw [hvisit.usable_eq] at hleft
        cases hleft
      · rw [(hvisits hvisit).unique hcomes]
        exact hfails
  · intro v hv
    rcases of_mem_unusable_select hrun hv with ⟨visit, hvisit, rfl, hfails⟩
    exact ⟨hvisit.usable_eq, visit.state, hvisits hvisit, hfails⟩

end Selection

/-!
Three versions of a method whose class has a finalizer. The first one relies on
there being none, the others rely on nothing, and the last one is asked for.
-/

namespace Selection.Appointment

def world : World :=
  let (w, a) := (World.empty 0).defineClass
    { name := "A", loader := .app, hasFinalizer := true }
  (w.defineMethod a "f" "()V").1

def methods : List CompiledMethod :=
  [Assembler.dependency (Assembler.nops (Assembler.start world.host ⟨0⟩) 8)
      .noFinalizableSubclasses [.klass ⟨0⟩],
    Assembler.nops (Assembler.start world.host ⟨0⟩) 16,
    Assembler.nops (Assembler.start world.host ⟨0⟩) 24]

def saved : MetaSpace × CodeSpace :=
  match methods.mapM (CompiledMethod.emit world.host) {} with
  | .error _ _ => ({}, {})
  | .ok blobs metas =>
    let chain := blobs.foldlM (fun (space, head) blob => do
      let (space, offset) ← CodeSpace.appendVersion space head blob.bytes
      return (space, head.or (some offset))) (({}, none) : CodeSpace × Option UInt32)
    (metas, (chain.toOption.map (·.1)).getD {})

def ctx : ReviveContext :=
  { host := world.host, epoch := {}, method := ⟨0⟩ }

def options : Options :=
  { revivePolicy := .appointed 2 }

def outcome : Option (Option Nat × List Nat) :=
  match select ctx options saved.2 0 (fun _ => true) 0 saved.1 with
  | .ok selection _ => some (selection.selected.map (·.version), selection.unusable)
  | .error _ _ => none

theorem chain_and_outcome :
    (saved.2.chain 0).toOption.map List.length = some 3 ∧
      outcome = some (some 2, [0]) := by
  decide +kernel

theorem selected_as_appointed :
    ∃ blobs, saved.2.chain 0 = .ok blobs ∧ blobs.length = 3 ∧
      ∃ selection after,
        select ctx options saved.2 0 (fun _ => true) 0 saved.1 =
          .ok selection after ∧
        selection.selected.map (·.version) = some 2 ∧
        ValidVersion ctx options saved.2 0 saved.1 (fun _ => true) 2 ∧
        selection.disable = false ∧ selection.unusable = [0] ∧
        LostVersion ctx options saved.2 0 saved.1 0 := by
  rcases chain_and_outcome with ⟨hlength, houtcome⟩
  cases hchain : saved.2.chain 0 with
  | error e =>
      rw [hchain] at hlength
      cases hlength
  | ok blobs =>
      rw [hchain] at hlength
      rcases select_meets_policy ctx options hchain (fun _ => true) 0 saved.1 with
        ⟨selection, after, hrun, -, hpicks, hdisable, hunusable⟩
      unfold outcome at houtcome
      rw [hrun, Option.some.injEq, Prod.mk.injEq] at houtcome
      rcases houtcome with ⟨hselected, hruledOut⟩
      rw [hselected] at hpicks
      have hvalid : ValidVersion ctx options saved.2 0 saved.1 (fun _ => true) 2 := by
        rcases hpicks with ⟨hvalid, -⟩ | ⟨-, hleast⟩
        · exact hvalid
        · exact hleast.1
      refine ⟨blobs, rfl, Option.some.inj hlength, selection, after, hrun,
        hselected, hvalid, ?_, hruledOut, ?_⟩
      · cases hdone : selection.disable with
        | false => rfl
        | true =>
            have hlt : 2 < blobs.length := by
              rw [Option.some.inj hlength]
              decide
            rcases hdisable.mp hdone 2 hlt with hleft | hlost
            · cases hleft
            · exact absurd hlost hvalid.not_lost
      · exact (hunusable 0 (hruledOut ▸ List.mem_singleton_self 0)).2

end Selection.Appointment

end CodeCache

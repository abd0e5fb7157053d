import CodeCache.Proofs.Alike
import CodeCache.Proofs.Blob.Resolving

/-!
# Resolving the same names

The records of two blobs may carry different indices, over different metaspaces.
If the same keys stand there, both blobs are resolved to the same entities and
objects, or fail in the same way.
-/

namespace CodeCache

namespace TagRecord

/-- The records differ at most in an index, at which the same key stands. -/
inductive Matches (keys keys' : List MetaKey) : TagRecord → TagRecord → Prop where
  | klass {loader : Loader} {i j : UInt32} {needed : InitState} {key : MetaKey}
      (hi : keys[i.toNat]? = some key) (hj : keys'[j.toNat]? = some key) :
      Matches keys keys' (.klass loader i needed) (.klass loader j needed)
  | mirror {loader : Loader} {i j : UInt32} {needed : InitState} {key : MetaKey}
      (hi : keys[i.toNat]? = some key) (hj : keys'[j.toNat]? = some key) :
      Matches keys keys' (.mirror loader i needed) (.mirror loader j needed)
  | method {loader : Loader} {i j : UInt32} {key : MetaKey}
      (hi : keys[i.toNat]? = some key) (hj : keys'[j.toNat]? = some key) :
      Matches keys keys' (.method loader i) (.method loader j)
  | plain {r : TagRecord} (h : r.metaIndex? = none) : Matches keys keys' r r

variable {keys keys' : List MetaKey} {r r' : TagRecord}

end TagRecord

def steps {α : Type} (work : InSpace α) : StateT MetaSpace (Except Error) α :=
  fun space =>
    match work space with
    | .ok a space' => .ok (a, space')
    | .error e _ => .error e

section

variable {α β : Type}

theorem steps_bind (work : InSpace α) (f : α → InSpace β) :
    steps (work >>= f) = steps work >>= fun a => steps (f a) := by
  funext space
  show steps (EStateM.bind work f) space = (steps work space >>= _)
  unfold steps EStateM.bind
  cases work space with
  | ok a space' => rfl
  | error e space' => rfl

theorem steps_mapM (f : α → InSpace β) (as : List α) :
    steps (as.mapM f) = as.mapM fun a => steps (f a) := by
  induction as with
  | nil => rfl
  | cons a as ih =>
      rw [List.mapM_cons, List.mapM_cons, steps_bind]
      congr 1
      funext b
      rw [steps_bind, ih]
      rfl

end

def BothLead (live : Host) (keys keys' : List MetaKey) (s s' : MetaSpace) :
    Prop :=
  s.Leads live keys ∧ s'.Leads live keys'

abbrev AlikeIn {α β : Type} (live : Host) (keys keys' : List MetaKey)
    (R : α → β → Prop) (work : InSpace α) (work' : InSpace β) : Prop :=
  Alike (BothLead live keys keys') R (steps work) (steps work')

namespace AlikeIn

variable {α β γ δ : Type} {live : Host} {keys keys' : List MetaKey}
  {R : α → β → Prop} {S : γ → δ → Prop}

theorem of_pure {a : α} {b : β} (h : R a b) :
    AlikeIn live keys keys' R (pure a) (pure b) :=
  Alike.of_pure h

theorem of_throw {e e' : Error} (h : e.className = e'.className) :
    AlikeIn live keys keys' R (throw e) (throw e') :=
  Alike.of_throw h

theorem of_bind {work : InSpace α} {work' : InSpace β} {f : α → InSpace γ}
    {g : β → InSpace δ} (h : AlikeIn live keys keys' R work work')
    (hnext : ∀ a b, R a b → AlikeIn live keys keys' S (f a) (g b)) :
    AlikeIn live keys keys' S (work >>= f) (work' >>= g) := by
  unfold AlikeIn
  rw [steps_bind, steps_bind]
  exact Alike.of_bind h hnext

theorem of_bind_pure {work work' : InSpace α} (f : α → γ)
    (h : AlikeIn live keys keys' Eq work work') :
    AlikeIn live keys keys' Eq (work >>= fun a => pure (f a))
      (work' >>= fun a => pure (f a)) := by
  refine h.of_bind ?_
  rintro a _ rfl
  exact of_pure rfl

theorem of_ofExcept (x : Except Error α) :
    AlikeIn live keys keys' Eq (ofExcept x) (ofExcept x) := by
  cases x with
  | ok a => exact of_pure rfl
  | error e => exact of_throw rfl

theorem of_mapM {P : γ → δ → Prop} {f : γ → InSpace α} {g : δ → InSpace α}
    {as : List γ} {bs : List δ} (hall : List.Forall₂ P as bs)
    (h : ∀ a b, P a b → AlikeIn live keys keys' Eq (f a) (g b)) :
    AlikeIn live keys keys' Eq (as.mapM f) (bs.mapM g) := by
  unfold AlikeIn
  rw [steps_mapM, steps_mapM, ← List.forall₂_eq_eq_eq]
  exact Alike.of_mapM hall h

end AlikeIn

/-!
## Single entries
-/

namespace MetaSpace

variable {live : Host} {keys keys' : List MetaKey} {epoch : Epoch}

theorem resolve_fails {index : UInt32} {key : MetaKey} {error : Error}
    (hkey : keys[index.toNat]? = some key)
    (h : key.resolve live = .error error) {space : MetaSpace}
    (hspace : space.Leads live keys) :
    ∃ space', resolve live epoch index space = .error error space' := by
  have hat := hkey
  rw [← hspace.keys_eq, MetaSpace.keys, List.getElem?_map,
    Option.map_eq_some_iff] at hat
  rcases hat with ⟨entry, hentry, rfl⟩
  have hlive : entry.live = none := by
    cases hlive : entry.live with
    | none => rfl
    | some e =>
        have hresolve :=
          hspace.live_eq entry (List.mem_of_getElem? hentry) e hlive
        rw [h] at hresolve
        cases hresolve
  have hcurrent : entry.current? epoch = none := by
    unfold MetaEntry.current?
    rw [hlive]
    exact ite_self none
  have hanswer : (resolveEntry live epoch entry).1 = .error error := by
    unfold resolveEntry
    rw [hcurrent, hlive]
    simp only [Option.filter_none, h]
  rw [resolve_apply, show space.entry? index = some entry from hentry]
  dsimp only
  rw [hanswer]
  exact ⟨_, rfl⟩

theorem resolve_alike {i j : UInt32} {key : MetaKey}
    (hi : keys[i.toNat]? = some key) (hj : keys'[j.toNat]? = some key) :
    AlikeIn live keys keys' Eq (resolve live epoch i) (resolve live epoch j) := by
  rintro s s' ⟨hs, hs'⟩
  unfold steps
  cases h : key.resolve live with
  | ok e =>
      rcases resolve_gives hi h s hs with ⟨t, hrun, ht⟩
      rcases resolve_gives hj h s' hs' with ⟨t', hrun', ht'⟩
      rw [hrun, hrun']
      exact .ok ⟨rfl, ht, ht'⟩
  | error e =>
      rcases resolve_fails hi h hs with ⟨t, hrun⟩
      rcases resolve_fails hj h hs' with ⟨t', hrun'⟩
      rw [hrun, hrun']
      exact .error rfl

end MetaSpace

/-!
## Records
-/

namespace ReviveContext

variable {ctx : ReviveContext} {keys keys' : List MetaKey} {i j : UInt32}
  {key : MetaKey}

theorem klassAt_alike (hi : keys[i.toNat]? = some key)
    (hj : keys'[j.toNat]? = some key) (needed : InitState) :
    AlikeIn ctx.host keys keys' Eq (ctx.klassAt i needed)
      (ctx.klassAt j needed) := by
  unfold klassAt
  refine (MetaSpace.resolve_alike hi hj).of_bind ?_
  rintro e _ rfl
  cases e with
  | klass k =>
      refine (AlikeIn.of_ofExcept _).of_bind ?_
      intro _ _ _
      exact AlikeIn.of_pure rfl
  | method m => exact AlikeIn.of_throw rfl

theorem methodAt_alike (hi : keys[i.toNat]? = some key)
    (hj : keys'[j.toNat]? = some key) :
    AlikeIn ctx.host keys keys' Eq (ctx.methodAt i) (ctx.methodAt j) := by
  unfold methodAt
  refine (MetaSpace.resolve_alike hi hj).of_bind ?_
  rintro e _ rfl
  cases e with
  | klass k => exact AlikeIn.of_throw rfl
  | method m =>
      refine (AlikeIn.of_ofExcept _).of_bind ?_
      intro _ _ _
      exact AlikeIn.of_pure rfl

variable {r r' : TagRecord}

theorem entityOf_alike (h : TagRecord.Matches keys keys' r r') :
    AlikeIn ctx.host keys keys' Eq (ctx.entityOf r) (ctx.entityOf r') := by
  cases h with
  | klass hi hj => exact (klassAt_alike hi hj _).of_bind_pure _
  | method hi hj => exact (methodAt_alike hi hj).of_bind_pure _
  | mirror hi hj => exact AlikeIn.of_throw rfl
  | plain h =>
      cases r with
      | klass | mirror | method => cases h
      | nonOop | selfMethod => exact AlikeIn.of_pure rfl
      | _ => exact AlikeIn.of_throw rfl

theorem objectOf_alike (h : TagRecord.Matches keys keys' r r') :
    AlikeIn ctx.host keys keys' Eq (ctx.objectOf r) (ctx.objectOf r') := by
  cases h with
  | mirror hi hj => exact (klassAt_alike hi hj _).of_bind_pure _
  | klass hi hj => exact AlikeIn.of_throw rfl
  | method hi hj => exact AlikeIn.of_throw rfl
  | plain h =>
      cases r with
      | klass | mirror | method => cases h
      | nonOop | text | knownObject => exact AlikeIn.of_pure rfl
      | loaderObject loader =>
          cases loader with
          | holder => exact AlikeIn.of_pure rfl
          | _ => exact AlikeIn.of_throw rfl
      | _ => exact AlikeIn.of_throw rfl

theorem siteValue?_alike (h : TagRecord.Matches keys keys' r r') :
    AlikeIn ctx.host keys keys' Eq (ctx.siteValue? r) (ctx.siteValue? r') := by
  have hentity := @entityOf_alike ctx _ _ _ _ h
  have hobject := @objectOf_alike ctx _ _ _ _ h
  cases h with
  | klass hi hj => exact hentity.of_bind_pure _
  | method hi hj => exact hentity.of_bind_pure _
  | mirror hi hj => exact hobject.of_bind_pure _
  | plain h =>
      cases r with
      | selfMethod => exact hentity.of_bind_pure _
      | text | knownObject => exact hobject.of_bind_pure _
      | klass | mirror | method => cases h
      | _ => exact AlikeIn.of_pure rfl

end ReviveContext

/-!
## Whole blobs
-/

namespace Blob

variable {live : Host} {keys keys' : List MetaKey}

theorem readFrom_eq {α : Type} {reader : Read α} {c next : Cursor} {a : α}
    (h : reader c = .ok a next) :
    readFrom reader c = pure (a, next) := by
  unfold readFrom
  rw [h]

theorem resolveArray_alike {α : Type} {P : TagRecord → TagRecord → Prop}
    {f g : TagRecord → InSpace α} {c c' : Cursor}
    {records records' : List TagRecord} (hholds : TagStream.Holds c records)
    (hholds' : TagStream.Holds c' records')
    (hall : List.Forall₂ P records records')
    (h : ∀ r r', P r r' → AlikeIn live keys keys' Eq (f r) (g r')) :
    AlikeIn live keys keys' Eq (resolveArray f records.length c)
      (resolveArray g records.length c') := by
  induction hall generalizing c c' with
  | nil =>
      cases hholds with
      | finish hend =>
          cases hholds' with
          | finish hend' =>
              unfold List.length resolveArray
              rw [readFrom_eq (decodeEnd_eq hend), readFrom_eq (decodeEnd_eq hend')]
              exact AlikeIn.of_pure rfl
  | cons hrecord _ ih =>
      cases hholds with
      | cons hread hne hrest =>
          cases hholds' with
          | cons hread' hne' hrest' =>
              unfold List.length resolveArray
              rw [readFrom_eq hread, readFrom_eq hread', pure_bind, pure_bind]
              refine (h _ _ hrecord).of_bind ?_
              rintro a _ rfl
              exact (ih hrest hrest').of_bind_pure _

theorem resolveSites_alike {ctx : ReviveContext} {b b' : Blob}
    {records records' : List TagRecord}
    (hholds : TagStream.Holds { bytes := b.tagReloc } records)
    (hholds' : TagStream.Holds { bytes := b'.tagReloc } records')
    (hall : List.Forall₂ (TagRecord.Matches keys keys') records records') :
    AlikeIn ctx.host keys keys' Eq (b.resolveSites ctx)
      (b'.resolveSites ctx) := by
  rcases hholds.scan with ⟨hfault, hrecords⟩
  rcases hholds'.scan with ⟨hfault', hrecords'⟩
  rw [← hrecords, ← hrecords', List.forall₂_map_left_iff,
    List.forall₂_map_right_iff] at hall
  unfold resolveSites
  dsimp only
  rw [hfault, hfault']
  refine (AlikeIn.of_mapM hall ?_).of_bind_pure _
  intro entry entry' hrecord
  exact ReviveContext.siteValue?_alike hrecord

theorem resolve_alike {ctx : ReviveContext} {b b' : Blob} {nm : CompiledMethod}
    {metas oops sites metas' oops' sites' : List TagRecord}
    (h : b.Stores nm metas oops sites) (h' : b'.Stores nm metas' oops' sites')
    (hmetas : List.Forall₂ (TagRecord.Matches keys keys') metas metas')
    (hoops : List.Forall₂ (TagRecord.Matches keys keys') oops oops')
    (hsites : List.Forall₂ (TagRecord.Matches keys keys') sites sites')
    (hmetaCount : metas.length = nm.metadata.length)
    (hoopCount : oops.length = nm.oops.length) :
    AlikeIn ctx.host keys keys' Eq (b.resolve ctx) (b'.resolve ctx) := by
  unfold resolve resolveMetadata resolveOops
  rw [h.metaCount_eq, h'.metaCount_eq, ← hmetaCount, h.oopCount_eq,
    h'.oopCount_eq, ← hoopCount]
  refine (resolveArray_alike h.metas_held h'.metas_held hmetas
    fun _ _ => ReviveContext.entityOf_alike).of_bind ?_
  rintro metadata _ rfl
  refine (resolveArray_alike h.oops_held h'.oops_held hoops
    fun _ _ => ReviveContext.objectOf_alike).of_bind ?_
  rintro oops _ rfl
  exact (resolveSites_alike h.sites_held h'.sites_held hsites).of_bind_pure _

end Blob

end CodeCache

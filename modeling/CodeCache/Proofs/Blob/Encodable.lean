import CodeCache.Proofs.Blob.Emitting

/-!
# What emitting depends on

Emitting interns as it goes, and its records hold the indices that it gets. But
whether it succeeds, and which classes and methods it names, does not depend on
what was interned before: an entity is interned without a look at its key only if
it had one. And the blob depends only on where their keys stand in the end.
-/

namespace CodeCache

/-- What work on a metaspace comes to, whatever was interned before. -/
structure Course (α : Type) where
  succeeds : Bool
  named : List MetaKey
  answer : List MetaKey → Option α

def Decides {α : Type} (host : Host) (work : InSpace α) (course : Course α) :
    Prop :=
  ∀ space : MetaSpace, space.Coherent host →
    match work space with
    | .ok a space' => course.succeeds = true ∧ space'.Coherent host ∧
        space'.keys = MetaKey.addAllTo space.keys course.named ∧
        ∀ final : List MetaKey, final.Nodup → space'.keys <+: final →
          course.answer final = some a
    | .error _ space' => course.succeeds = false ∧ space'.Coherent host ∧
        space'.keys = MetaKey.addAllTo space.keys course.named

def Decided {α : Type} (host : Host) (work : InSpace α) : Prop :=
  ∃ course, Decides host work course

namespace Decides

variable {host : Host} {α β : Type}

theorem of_pure (a : α) :
    Decides host (pure a : InSpace α) ⟨true, [], fun _ => some a⟩ :=
  fun _ hspace => ⟨rfl, hspace, rfl, fun _ _ _ => rfl⟩

theorem of_throw (e : Error) :
    Decides host (throw e : InSpace α) ⟨false, [], fun _ => none⟩ :=
  fun _ hspace => ⟨rfl, hspace, rfl⟩

theorem of_bind {work : InSpace α} {next : α → InSpace β} {course : Course α}
    {succeeds : Bool} {named : List MetaKey}
    {answer : α → List MetaKey → Option β} (h : Decides host work course)
    (hnext : ∀ a, Decides host (next a) ⟨succeeds, named, answer a⟩) :
    Decides host (work >>= next)
      ⟨course.succeeds && succeeds,
        if course.succeeds then course.named ++ named else course.named,
        fun final => (course.answer final).bind (answer · final)⟩ := by
  intro space hspace
  have hfirst := h space hspace
  show match EStateM.bind work next space with
    | .ok b space' => (course.succeeds && succeeds) = true ∧
        space'.Coherent host ∧
        space'.keys = MetaKey.addAllTo space.keys
          (if course.succeeds then course.named ++ named else course.named) ∧
        ∀ final : List MetaKey, final.Nodup → space'.keys <+: final →
          (course.answer final).bind (answer · final) = some b
    | .error _ space' => (course.succeeds && succeeds) = false ∧
        space'.Coherent host ∧
        space'.keys = MetaKey.addAllTo space.keys
          (if course.succeeds then course.named ++ named else course.named)
  unfold EStateM.bind
  cases hrun : work space with
  | error e space' =>
      rw [hrun] at hfirst
      rcases hfirst with ⟨hfails, hcoherent, hkeys⟩
      dsimp only
      rw [hfails]
      exact ⟨rfl, hcoherent, hkeys⟩
  | ok a space' =>
      rw [hrun] at hfirst
      rcases hfirst with ⟨hsucceeds, hcoherent, hkeys, hanswer⟩
      have hrest := hnext a space' hcoherent
      dsimp only
      rw [hsucceeds, if_pos rfl, MetaKey.addAllTo_append, ← hkeys,
        Bool.true_and]
      cases hrun' : next a space' with
      | error e space'' =>
          rw [hrun'] at hrest
          exact hrest
      | ok b space'' =>
          rw [hrun'] at hrest
          rcases hrest with ⟨hsucceeds', hcoherent', hkeys', hanswer'⟩
          refine ⟨hsucceeds', hcoherent', hkeys', ?_⟩
          intro final hdistinct hend
          have hgrow : space'.keys <+: space''.keys := by
            rw [hkeys']
            exact MetaKey.prefix_addAllTo _ _
          rw [hanswer final hdistinct (hgrow.trans hend)]
          exact hanswer' final hdistinct hend

end Decides

namespace Decided

variable {host : Host} {α β : Type}

theorem of_pure (a : α) : Decided host (pure a : InSpace α) :=
  ⟨_, .of_pure a⟩

theorem of_throw (e : Error) : Decided host (throw e : InSpace α) :=
  ⟨_, .of_throw e⟩

theorem of_bind_pure {work : InSpace α} (h : Decided host work) (f : α → β) :
    Decided host (work >>= fun a => pure (f a)) := by
  rcases h with ⟨course, hwork⟩
  exact ⟨_, hwork.of_bind fun a => .of_pure (f a)⟩

theorem of_map {work : InSpace α} (h : Decided host work) (f : α → β) :
    Decided host (f <$> work) :=
  h.of_bind_pure f

theorem of_ofExcept (result : Except Error α) :
    Decided host (ofExcept result : InSpace α) := by
  cases result with
  | ok a => exact of_pure a
  | error e => exact of_throw e

theorem of_ite {c : Prop} [Decidable c] {work₁ work₂ : InSpace α}
    (h₁ : Decided host work₁) (h₂ : Decided host work₂) :
    Decided host (if c then work₁ else work₂) := by
  split
  · exact h₁
  · exact h₂

theorem of_mapM {work : α → InSpace β} (h : ∀ a, Decided host (work a))
    (as : List α) :
    Decided host (as.mapM work) := by
  induction as with
  | nil => exact of_pure []
  | cons a as ih =>
      rcases h a with ⟨course, hfirst⟩
      rcases ih with ⟨rest, hrest⟩
      rw [List.mapM_cons]
      exact ⟨_, hfirst.of_bind fun b => hrest.of_bind fun bs => .of_pure (b :: bs)⟩

theorem of_intern (e : Entity) : Decided host (MetaSpace.intern host e) := by
  cases hkey : MetaKey.of host e with
  | error error =>
      refine ⟨⟨false, [], fun _ => none⟩, ?_⟩
      intro space hspace
      rw [hspace.intern_of_error hkey]
      exact ⟨rfl, hspace, rfl⟩
  | ok key =>
      refine ⟨⟨true, [key],
        fun final => some (UInt32.ofNat (final.idxOf key))⟩, ?_⟩
      intro space hspace
      rcases hspace.intern_of_ok hkey with
        ⟨index, space', hrun, hcoherent, hkeys, hat⟩
      rw [hrun]
      refine ⟨rfl, hcoherent, hkeys, ?_⟩
      intro final hdistinct hend
      have hmem := (hat.mono hend).mem
      have hidx : KeyAt final (UInt32.ofNat (final.idxOf key)) key :=
        ⟨_, List.getElem?_idxOf hmem, rfl⟩
      exact congrArg some (hidx.index_unique (hat.mono hend) hdistinct)

end Decided

namespace Emit

variable {host : Host}

theorem entityRecord_decided (self : MethodId) (e : Entity) :
    Decided host (entityRecord host self e) := by
  unfold entityRecord
  apply Decided.of_ite (Decided.of_pure _)
  cases e with
  | method m => exact (Decided.of_intern _).of_bind_pure _
  | klass k => exact (Decided.of_intern _).of_bind_pure _

theorem objectRecord_decided (self : MethodId) (object : Object) :
    Decided host (objectRecord host self object) := by
  unfold objectRecord
  split
  · exact .of_pure _
  · split
    · exact .of_pure _
    · exact (Decided.of_intern _).of_bind_pure _
    · exact .of_ite (.of_pure _) (.of_throw _)
    · exact .of_throw _

theorem orNone_decided {α : Type} {record : α → InSpace TagRecord}
    (h : ∀ a, Decided host (record a)) (a? : Option α) :
    Decided host (orNone record a?) := by
  cases a? with
  | none => exact .of_pure _
  | some a => exact h a

theorem siteRecord?_decided (nm : CompiledMethod) (r : Relocation) :
    Decided host (siteRecord? host nm r) := by
  have harray : ∀ {α : Type} (entry : Except Error (Option α))
      {record : α → InSpace TagRecord}, (∀ a, Decided host (record a)) →
      Decided host (ofExcept entry >>= fun a? => some <$> orNone record a?) := by
    intro α entry record hrecord
    cases entry with
    | ok a? => exact (orNone_decided hrecord a?).of_map some
    | error e => exact .of_throw e
  rcases r with ⟨offset, kind⟩
  cases kind with
  | oop index immediate =>
      cases immediate with
      | false => exact .of_pure _
      | true => exact harray _ (objectRecord_decided nm.method)
  | metadata index immediate =>
      cases immediate with
      | false => exact .of_pure _
      | true => exact harray _ (entityRecord_decided nm.method)
  | externalWord => exact (Decided.of_ofExcept _).of_map some
  | runtimeCall => exact (Decided.of_ofExcept _).of_map some
  | internalWord => exact (Decided.of_ofExcept _).of_map some
  | sectionWord => exact (Decided.of_ofExcept _).of_map some
  | _ => exact .of_pure _

end Emit

namespace CompiledMethod

def isEncodable (host : Host) (nm : CompiledMethod) : Bool :=
  match nm.emit host {} with
  | .ok _ _ => true
  | .error _ _ => false

def namedKeys (host : Host) (nm : CompiledMethod) : List MetaKey :=
  match nm.emit host {} with
  | .ok _ space => space.keys
  | .error _ space => space.keys

variable {host : Host}

theorem emit_decided (nm : CompiledMethod) : Decided host (nm.emit host) := by
  rcases @Decided.of_intern host (.method nm.method) with ⟨c₀, h₀⟩
  rcases Decided.of_mapM (Emit.orNone_decided
    (@Emit.entityRecord_decided host nm.method)) nm.metadata with ⟨c₁, h₁⟩
  rcases Decided.of_mapM (Emit.orNone_decided
    (@Emit.objectRecord_decided host nm.method)) nm.oops with ⟨c₂, h₂⟩
  rcases Decided.of_mapM (@Emit.siteRecord?_decided host nm)
    nm.relocations with ⟨c₃, h₃⟩
  exact ⟨_, h₀.of_bind fun index => h₁.of_bind fun metas =>
    h₂.of_bind fun oops => h₃.of_bind fun sites => .of_pure _⟩

theorem emit_decides (host : Host) (nm : CompiledMethod) :
    ∃ answer, Decides host (nm.emit host)
      ⟨nm.isEncodable host, nm.namedKeys host, answer⟩ := by
  rcases @emit_decided host nm with ⟨course, hdecides⟩
  have hempty := hdecides {} (MetaSpace.coherent_empty host)
  have hcourse : nm.isEncodable host = course.succeeds ∧
      nm.namedKeys host = MetaKey.addAllTo [] course.named := by
    unfold isEncodable namedKeys
    cases hrun : nm.emit host {} with
    | ok blob space =>
        rw [hrun] at hempty
        exact ⟨hempty.1.symm, hempty.2.2.1⟩
    | error e space =>
        rw [hrun] at hempty
        exact ⟨hempty.1.symm, hempty.2.2⟩
  refine ⟨course.answer, ?_⟩
  intro space hspace
  have hout := hdecides space hspace
  rw [← MetaKey.addAllTo_addAllTo_nil, ← hcourse.1, ← hcourse.2] at hout
  exact hout

section

variable {nm : CompiledMethod} {space : MetaSpace}

theorem emit_eq_ok (h : nm.isEncodable host = true)
    (hspace : space.Coherent host) :
    ∃ blob space', nm.emit host space = .ok blob space' ∧
      space'.Coherent host ∧
      space'.keys = MetaKey.addAllTo space.keys (nm.namedKeys host) := by
  rcases emit_decides host nm with ⟨answer, hdecides⟩
  have hout := hdecides space hspace
  cases hrun : nm.emit host space with
  | ok blob space' =>
      rw [hrun] at hout
      exact ⟨blob, space', rfl, hout.2.1, hout.2.2.1⟩
  | error e space' =>
      rw [hrun] at hout
      exact absurd (hout.1.symm.trans h) Bool.false_ne_true

theorem emit_eq_error (h : nm.isEncodable host = false)
    (hspace : space.Coherent host) :
    ∃ e space', nm.emit host space = .error e space' ∧
      space'.Coherent host ∧
      space'.keys = MetaKey.addAllTo space.keys (nm.namedKeys host) := by
  rcases emit_decides host nm with ⟨answer, hdecides⟩
  have hout := hdecides space hspace
  cases hrun : nm.emit host space with
  | ok blob space' =>
      rw [hrun] at hout
      exact absurd (h.symm.trans hout.1) Bool.false_ne_true
  | error e space' =>
      rw [hrun] at hout
      exact ⟨e, space', rfl, hout.2.1, hout.2.2⟩

/-- A method is emitted into whatever space exactly if it can be encoded. -/
theorem emit_encodes (hspace : space.Coherent host) :
    match nm.emit host space with
    | .ok _ _ => nm.isEncodable host = true
    | .error _ _ => nm.isEncodable host = false := by
  cases h : nm.isEncodable host with
  | true =>
      rcases emit_eq_ok h hspace with ⟨blob, space', hrun, -⟩
      rw [hrun]
  | false =>
      rcases emit_eq_error h hspace with ⟨e, space', hrun, -⟩
      rw [hrun]

end

end CompiledMethod

/-!
## Emitting a method into two spaces
-/

namespace MetaSpace

theorem name_congr {space space' : MetaSpace} {index : UInt32}
    (h : space'.keys[index.toNat]? = space.keys[index.toNat]?) :
    space'.name index = space.name index := by
  have hname : ∀ s : MetaSpace, s.name index =
      ((s.keys[index.toNat]?).map fun key => key.name.display).getD
        s!"<bad meta index {index}>" := by
    intro s
    unfold name entry? keys
    rw [List.getElem?_map]
    cases s.entries[index.toNat]? <;> rfl
  rw [hname, hname, h]

end MetaSpace

theorem KeyAt.name_eq {space space' : MetaSpace} {final : List MetaKey}
    {index : UInt32} {key : MetaKey} (h : KeyAt space.keys index key)
    (h' : KeyAt space'.keys index key) (hdistinct : final.Nodup)
    (hend : space.keys <+: final) (hend' : space'.keys <+: final) :
    space'.name index = space.name index := by
  rcases h with ⟨n, hn, rfl⟩
  rcases h' with ⟨m, hm, -⟩
  have hlt := (List.getElem?_eq_some_iff.mp hn).1
  have hlt' := (List.getElem?_eq_some_iff.mp hm).1
  have hsame : n = m := by
    rw [getElem?_of_prefix_lt hend hlt] at hn
    rw [getElem?_of_prefix_lt hend' hlt'] at hm
    exact (List.getElem?_inj (List.getElem?_eq_some_iff.mp hn).1 hdistinct).mp
      (hn.trans hm.symm)
  -- An index wraps around, but never to a place behind its key.
  have hle : (UInt32.ofNat n).toNat ≤ n := by
    rw [UInt32.toNat_ofNat']
    exact Nat.mod_le _ _
  apply MetaSpace.name_congr
  rw [getElem?_of_prefix_lt hend (by omega), getElem?_of_prefix_lt hend' (by omega)]

theorem CompiledMethod.keyAt_of_emit {host : Host} {nm : CompiledMethod}
    {space space' : MetaSpace} {blob : EmittedBlob}
    (hspace : space.Coherent host) (hemit : nm.emit host space = .ok blob space') :
    ∃ key, MetaKey.of host (.method nm.method) = .ok key ∧
      KeyAt space'.keys blob.methodIndex key := by
  have hinterns := @emit_interns host space'.keys nm space hspace
  rw [hemit] at hinterns
  rcases hinterns.2.2 (List.prefix_refl _) with ⟨_, _, _, hdescribes⟩
  rcases hdescribes.assembled with ⟨index, hindex, rfl⟩
  exact hindex

theorem CompiledMethod.emit_same {host : Host} {nm : CompiledMethod}
    {space space' other other' : MetaSpace} {blob blob' : EmittedBlob}
    (hspace : space.Coherent host) (hother : other.Coherent host)
    (hemit : nm.emit host space = .ok blob space')
    (hemit' : nm.emit host other = .ok blob' other') {final : List MetaKey}
    (hdistinct : final.Nodup) (hend : space'.keys <+: final)
    (hend' : other'.keys <+: final) :
    blob' = blob ∧
      other'.name blob.methodIndex = space'.name blob.methodIndex := by
  rcases nm.emit_decides host with ⟨answer, hdecides⟩
  have hout := hdecides space hspace
  have hout' := hdecides other hother
  rw [hemit] at hout
  rw [hemit'] at hout'
  have hsame : blob' = blob := by
    have hanswer := hout.2.2.2 final hdistinct hend
    rw [hout'.2.2.2 final hdistinct hend'] at hanswer
    exact Option.some_inj.mp hanswer
  refine ⟨hsame, ?_⟩
  rcases keyAt_of_emit hspace hemit with ⟨key, hkey, hat⟩
  rcases keyAt_of_emit hother hemit' with ⟨key', hkey', hat'⟩
  rw [hkey] at hkey'
  cases hkey'
  rw [hsame] at hat'
  exact hat.name_eq hat' hdistinct hend hend'

end CodeCache

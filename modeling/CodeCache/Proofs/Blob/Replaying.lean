import CodeCache.Blob.Replay
import CodeCache.Proofs.Blob.Resolving
import CodeCache.Proofs.Code.Twins

/-!
# Replaying the patch sites of an emitted blob

The replay turns the code of the saved method into the code of its twin piece by
piece. In front of the current piece stands the twin's code already, behind it
still that of the saved method.
-/

namespace CodeCache

namespace Bytes

theorem readSlot_append (pre : Bytes) (v : UInt64) (post : Bytes) :
    readSlot (pre ++ ofUInt64 v ++ post) pre.length = .ok v := by
  have hwindow := window_append pre (ofUInt64 v) post
  rw [length_ofUInt64] at hwindow
  unfold readSlot
  rw [if_pos, hwindow, toUInt64_ofUInt64]
  simp only [List.length_append, length_ofUInt64]
  omega

theorem writeSlot_append (pre : Bytes) {old : Bytes} (post : Bytes)
    (v : UInt64) (h : old.length = 8) :
    writeSlot (pre ++ old ++ post) pre.length v =
      .ok (pre ++ ofUInt64 v ++ post) := by
  unfold writeSlot
  rw [if_pos, overwrite_append]
  · rw [length_ofUInt64, h]
  · simp only [List.length_append]
    omega

end Bytes

namespace Replay

structure Point where
  code : Bytes
  records : List TagRecord
  values : List SiteValue

structure Point.Is (p : Point) (state : Replay) : Prop where
  code_eq : state.code = p.code
  tags : TagStream.Holds state.tags p.records
  values_eq : state.values = p.values

def Moves {α : Type} (work : Replaying α) (p : Point) (a : α) (q : Point) :
    Prop :=
  ∀ state, p.Is state → ∃ state', work state = .ok (a, state') ∧ q.Is state'

namespace Moves

variable {α β : Type} {p q s : Point}

theorem of_pure (a : α) : Moves (pure a) p a p := by
  intro state hstate
  exact ⟨state, rfl, hstate⟩

theorem of_bind {work : Replaying α} {next : α → Replaying β} {a : α} {b : β}
    (h : Moves work p a q) (hnext : Moves (next a) q b s) :
    Moves (work >>= next) p b s := by
  intro state hstate
  rcases h state hstate with ⟨state', hrun, hstate'⟩
  rcases hnext state' hstate' with ⟨state'', hrun', hstate''⟩
  refine ⟨state'', ?_, hstate''⟩
  show (work state >>= fun x => next x.1 x.2) = _
  rw [hrun]
  exact hrun'

theorem of_bind_pure {work : Replaying α} {f : α → β} {a : α}
    (h : Moves work p a q) :
    Moves (work >>= fun x => pure (f x)) p (f a) q :=
  h.of_bind (of_pure (f a))

theorem of_forM_append {work : α → Replaying PUnit} {as bs : List α}
    (h : Moves (as.forM work) p () q) (h' : Moves (bs.forM work) q () s) :
    Moves ((as ++ bs).forM work) p () s := by
  have hsplit : (as ++ bs).forM work = as.forM work >>= fun _ => bs.forM work :=
    List.forM_append
  rw [hsplit]
  exact h.of_bind h'

theorem of_lift {result : Except Error α} {a : α} (h : result = .ok a) :
    Moves (liftM result) p a p := by
  intro state hstate
  rw [h]
  exact ⟨state, rfl, hstate⟩

end Moves

variable {records : List TagRecord} {values : List SiteValue} {code : Bytes}

theorem run_get_bind {α : Type} (next : Replay → Replaying α) (state : Replay) :
    (get >>= next) state = next state state :=
  rfl

theorem record_eq (site : UInt32) {state : Replay} {record : TagRecord}
    {next : Cursor} (h : TagRecord.decode state.tags = .ok record next)
    (hne : record ≠ .finish) :
    Replay.record site state = .ok (record, { state with tags := next }) := by
  unfold Replay.record
  rw [run_get_bind, h]
  cases record <;> first | rfl | exact absurd rfl hne

theorem record_of_end (site : UInt32) {state : Replay} {next : Cursor}
    (h : TagRecord.decode state.tags = .ok .finish next) :
    record site state = .error (.corruption (.streamEnds site)) := by
  unfold record
  rw [run_get_bind, h]
  rfl

theorem record_moves (site : UInt32) (record : TagRecord) :
    Moves (Replay.record site) ⟨code, record :: records, values⟩ record
      ⟨code, records, values⟩ := by
  intro state hstate
  have htags := hstate.tags
  cases htags with
  | @cons _ next _ _ hread hne hrest =>
      exact ⟨_, record_eq site hread hne, hstate.code_eq, hrest,
        hstate.values_eq⟩

theorem value_moves (v : SiteValue) :
    Moves Replay.value ⟨code, records, v :: values⟩ v
      ⟨code, records, values⟩ := by
  intro state hstate
  have hvalues := hstate.values_eq
  refine ⟨{ state with values := values }, ?_, hstate.code_eq, hstate.tags, rfl⟩
  unfold Replay.value
  rw [run_get_bind, hvalues]
  rfl

theorem write_moves {pre old post : Bytes} {slot : UInt32} {v : UInt64}
    (hslot : slot.toNat = pre.length) (hold : old.length = 8) :
    Moves (write slot v) ⟨pre ++ old ++ post, records, values⟩ ()
      ⟨pre ++ Bytes.ofUInt64 v ++ post, records, values⟩ := by
  intro state hstate
  refine ⟨{ state with code := pre ++ Bytes.ofUInt64 v ++ post }, ?_, rfl,
    hstate.tags, hstate.values_eq⟩
  have hwrite := Bytes.writeSlot_append pre post v hold
  have hcode : state.code = pre ++ old ++ post := hstate.code_eq
  rw [← hcode, ← hslot] at hwrite
  unfold write
  show ((state.code.writeSlot slot.toNat v >>= fun code =>
    pure (code, state)) >>= fun result => _) = _
  rw [hwrite]
  rfl

/-!
## Values of slots
-/

variable {saved : Host} {r : Renaming} {keys : List MetaKey}
  {nm : CompiledMethod} {ctx : ReviveContext} {base : UInt64}
  {codeSize : UInt32}

theorem entryAddress_eq {α : Type} {entries : List (Option α)} {index : UInt32}
    {a : α} (h : Emit.IsEntry entries index (some a)) (address : α → UInt64)
    (what : String) (f : α → α) :
    entryAddress address what (entries.map (·.map f)) index =
      .ok (address (f a)) := by
  unfold entryAddress
  rw [if_neg h.1, List.getElem?_map, h.2]
  rfl

theorem objectAddress_moves (h : ReviveContext.Revives saved r keys nm ctx)
    {object : Object} {record : TagRecord} (site : UInt32)
    (hrecord : Emit.DescribesObject saved nm.method keys (some object) record) :
    Moves (objectAddress ctx site)
      ⟨code, record :: records, (r.objectValue? (some object)).toList ++ values⟩
      (ctx.host.objectAddress (r.object object)) ⟨code, records, values⟩ := by
  refine (record_moves site record).of_bind ?_
  cases hrecord with
  | known hknown =>
      rw [h.counterparts.known _ _ hknown]
      exact (value_moves _).of_bind (Moves.of_pure _)
  | text s => exact (value_moves _).of_bind (Moves.of_pure _)
  | mirror _ => exact (value_moves _).of_bind (Moves.of_pure _)
  | loader =>
      have hloader : ctx.holderLoader =
          saved.entityLoader (.method nm.method) := by
        unfold ReviveContext.holderLoader
        rw [h.method_eq]
        exact h.counterparts.loader h.named
      dsimp only
      rw [hloader]
      exact Moves.of_pure _

theorem entityAddress_moves {entity : Entity} {record : TagRecord}
    (site : UInt32)
    (hrecord : Emit.DescribesEntity saved nm.method keys (some entity) record) :
    Moves (entityAddress ctx site)
      ⟨code, record :: records, r.entityValue (some entity) :: values⟩
      (ctx.host.metadataAddress (r.entity entity))
      ⟨code, records, values⟩ := by
  refine (record_moves site record).of_bind ?_
  cases hrecord with
  | self => exact (value_moves _).of_bind (Moves.of_pure _)
  | klass _ => exact (value_moves _).of_bind (Moves.of_pure _)
  | method _ _ => exact (value_moves _).of_bind (Moves.of_pure _)

theorem global_moves {g : GlobalKind} {n site : UInt32} {v : UInt64}
    (hv : ctx.host.globals.addressOf g n = .ok v) :
    Moves (global ctx site) ⟨code, .global g n :: records, values⟩ v
      ⟨code, records, values⟩ :=
  (record_moves site _).of_bind (Moves.of_lift hv)

theorem pollAddress?_moves {usesPage : Bool} {site : UInt32} {v : UInt64}
    (hv : Assembler.pollValue ctx.host usesPage = .ok v) :
    Moves (pollAddress? ctx site)
      ⟨code, Emit.pollRecord usesPage :: records, values⟩
      (if usesPage then some v else none) ⟨code, records, values⟩ := by
  refine (record_moves site _).of_bind ?_
  cases usesPage with
  | false => exact Moves.of_pure none
  | true => exact (Moves.of_lift hv).of_bind_pure

theorem internal_offset {target : UInt32} (hcode : nm.code.length < 2 ^ 32)
    (hlow : nm.base ≤ nm.base + target.toUInt64)
    (hhigh : nm.base + target.toUInt64 ≤
      nm.base + UInt64.ofNat nm.code.length) :
    target.toNat ≤ nm.code.length := by
  have htarget := target.toNat_lt
  have hbase := nm.base.toNat_lt
  have hlength : (UInt64.ofNat nm.code.length).toNat = nm.code.length :=
    UInt64.toNat_ofNat_of_lt' (show _ < 2 ^ 64 by omega)
  rw [UInt64.le_iff_toNat_le, UInt64.toNat_add, UInt32.toNat_toUInt64]
    at hlow hhigh
  rw [UInt64.toNat_add, hlength] at hhigh
  omega

theorem internalAddress_moves {target site : UInt32}
    (hcode : nm.code.length < 2 ^ 32) (hsize : codeSize.toNat = nm.code.length)
    (hlow : nm.base ≤ nm.base + target.toUInt64)
    (hhigh : nm.base + target.toUInt64 ≤
      nm.base + UInt64.ofNat nm.code.length) :
    Moves (internalAddress base codeSize site)
      ⟨code, .internalWord (nm.base + target.toUInt64 - nm.base).toUInt32 ::
        records, values⟩
      (base + target.toUInt64) ⟨code, records, values⟩ := by
  have hoffset : (nm.base + target.toUInt64 - nm.base).toUInt32 = target := by
    rw [UInt64.add_comm, UInt64.add_sub_cancel, UInt32.toUInt32_toUInt64]
  have hle : target ≤ codeSize := by
    rw [UInt32.le_iff_toNat_le, hsize]
    exact internal_offset hcode hlow hhigh
  rw [hoffset]
  refine (record_moves site _).of_bind ?_
  dsimp only
  rw [if_pos hle]
  exact Moves.of_pure _

/-!
## Sites
-/

structure Replays (saved : Host) (r : Renaming) (keys : List MetaKey)
    (nm : CompiledMethod) (ctx : ReviveContext) (codeSize : UInt32) : Prop
    extends ReviveContext.Revives saved r keys nm ctx where
  code_lt : nm.code.length < 2 ^ 32
  codeSize_eq : codeSize.toNat = nm.code.length

theorem virtualCall_moves {v v' : UInt64} {old pre post : Bytes}
    {cached offset : UInt32}
    (hlive : ctx.host.globals.addressOf .resolveVirtualCall 0 = .ok v')
    (hold : old.length = 8) (hcached : cached.toNat = pre.length)
    (hoffset : offset.toNat = pre.length + 8) :
    Moves (site ctx (r.resolved nm) base codeSize
        ⟨offset, .virtualCall cached⟩)
      ⟨pre ++ (old ++ Bytes.ofUInt64 v) ++ post, records, values⟩ ()
      ⟨pre ++ (Bytes.ofUInt64 nonOopWord ++ Bytes.ofUInt64 v') ++ post,
        records, values⟩ := by
  have hfirst : Moves (write cached nonOopWord)
      ⟨pre ++ old ++ (Bytes.ofUInt64 v ++ post), records, values⟩ ()
      ⟨pre ++ Bytes.ofUInt64 nonOopWord ++ (Bytes.ofUInt64 v ++ post),
        records, values⟩ :=
    write_moves hcached hold
  have hsecond : Moves (write offset v')
      ⟨(pre ++ Bytes.ofUInt64 nonOopWord) ++ Bytes.ofUInt64 v ++ post,
        records, values⟩ ()
      ⟨(pre ++ Bytes.ofUInt64 nonOopWord) ++ Bytes.ofUInt64 v' ++ post,
        records, values⟩ := by
    refine write_moves ?_ (Bytes.length_ofUInt64 v)
    rw [List.length_append, Bytes.length_ofUInt64, hoffset]
  simp only [List.append_assoc] at hfirst hsecond ⊢
  refine Moves.of_bind (a := some v') ?_ hsecond
  exact hfirst.of_bind (Moves.of_lift hlive).of_bind_pure

theorem staticStub_moves {v : UInt64} {old pre post : Bytes}
    {offset metadata jump : UInt32} (hold : old.length = 8)
    (hmetadata : metadata.toNat = pre.length)
    (hjump : jump.toNat = pre.length + 8) :
    Moves (site ctx (r.resolved nm) base codeSize
        ⟨offset, .staticStub metadata jump⟩)
      ⟨pre ++ (old ++ Bytes.ofUInt64 v) ++ post, records, values⟩ ()
      ⟨pre ++ (Bytes.ofUInt64 0 ++ Bytes.ofUInt64 (base + jump.toUInt64)) ++ post,
        records, values⟩ := by
  have hfirst : Moves (write metadata 0)
      ⟨pre ++ old ++ (Bytes.ofUInt64 v ++ post), records, values⟩ ()
      ⟨pre ++ Bytes.ofUInt64 0 ++ (Bytes.ofUInt64 v ++ post), records,
        values⟩ :=
    write_moves hmetadata hold
  have hsecond : Moves (write jump (base + jump.toUInt64))
      ⟨(pre ++ Bytes.ofUInt64 0) ++ Bytes.ofUInt64 v ++ post, records, values⟩ ()
      ⟨(pre ++ Bytes.ofUInt64 0) ++ Bytes.ofUInt64 (base + jump.toUInt64) ++ post,
        records, values⟩ := by
    refine write_moves ?_ (Bytes.length_ofUInt64 v)
    rw [List.length_append, Bytes.length_ofUInt64, hjump]
  simp only [List.append_assoc] at hfirst hsecond ⊢
  refine Moves.of_bind (a := none) ?_ (Moves.of_pure ())
  exact hfirst.of_bind (hsecond.of_bind (Moves.of_pure none))

theorem filterMap_singleton {α β : Type} (f : α → Option β) (a : α) :
    [a].filterMap f = (f a).toList := by
  rw [List.filterMap_cons]
  cases f a <;> rfl

theorem toUInt64_ofNat_add_eight {n : Nat} (h : n + 8 < 2 ^ 32) :
    (UInt32.ofNat (n + 8)).toUInt64 = (UInt32.ofNat n).toUInt64 + 8 := by
  have hn : (UInt32.ofNat n).toNat = n :=
    UInt32.toNat_ofNat_of_lt' (show _ < 2 ^ 32 by omega)
  have hsum : (UInt32.ofNat (n + 8)).toNat = n + 8 :=
    UInt32.toNat_ofNat_of_lt' h
  apply UInt64.toNat.inj
  rw [UInt64.toNat_add, UInt32.toNat_toUInt64, UInt32.toNat_toUInt64, hn, hsum]
  exact (Nat.mod_eq_of_lt (show n + 8 < 2 ^ 64 by omega)).symm

section

variable (h : Replays saved r keys nm ctx codeSize)
include h

theorem siteValue?_moves {kind : RelocKind} {v v' : UInt64} {offset : UInt32}
    {record? : Option TagRecord}
    (hpair : Assembler.SlotPair saved ctx.host r nm base kind v v')
    (hslot : nm.code.readSlot offset.toNat = .ok v)
    (hsite : Emit.DescribesSite saved nm keys ⟨offset, kind⟩ record?) :
    ∃ w, Moves (siteValue? ctx (r.resolved nm) base codeSize ⟨offset, kind⟩)
        ⟨code, record?.toList ++ records,
          (r.siteValue? nm ⟨offset, kind⟩).toList ++ values⟩ w
        ⟨code, records, values⟩ ∧
      (w = some v' ∨ w = none ∧ v' = v) := by
  have hsome : ∀ {work : Replaying UInt64} {p q : Point},
      Moves work p v' q → ∃ w, Moves (some <$> work) p w q ∧
        (w = some v' ∨ w = none ∧ v' = v) :=
    fun hmoves => ⟨some v', hmoves.of_bind_pure, Or.inl rfl⟩
  cases hpair with
  | @oop index object immediate hentry =>
      cases immediate with
      | false =>
          rw [hsite.of_plain rfl]
          exact hsome (Moves.of_lift (entryAddress_eq hentry _ _ _))
      | true =>
          rcases hsite.of_oop with ⟨object', record, hentry', hrecord, rfl⟩
          have hsame := hentry'.2
          rw [hentry.2] at hsame
          cases hsame
          rw [Renaming.siteValue?_oop hentry]
          exact hsome (objectAddress_moves h.toRevives offset hrecord)
  | @metadata index entity immediate hentry =>
      cases immediate with
      | false =>
          rw [hsite.of_plain rfl]
          exact hsome (Moves.of_lift (entryAddress_eq hentry _ _ _))
      | true =>
          rcases hsite.of_metadata with ⟨entity', record, hentry', hrecord, rfl⟩
          have hsame := hentry'.2
          rw [hentry.2] at hsame
          cases hsame
          rw [Renaming.siteValue?_metadata hentry]
          exact hsome (entityAddress_moves offset hrecord)
  | @global _ g n _ _ hkind hsaved hlive =>
      rcases hsite.of_global hkind with ⟨address, g', n', hslot', hfind, rfl⟩
      rw [hslot] at hslot'
      cases hslot'
      rw [(h.counterparts.globals g n v hsaved).1] at hfind
      cases hfind
      rcases hkind with rfl | rfl <;> exact hsome (global_moves hlive)
  | @poll _ usesPage _ _ hkind hsaved hlive =>
      have hmoves : Moves (pollAddress? ctx offset)
          ⟨code, Emit.pollRecord usesPage :: records, values⟩
          (if usesPage then some v' else none) ⟨code, records, values⟩ :=
        pollAddress?_moves hlive
      rw [hsite.of_poll hkind]
      refine ⟨if usesPage then some v' else none, ?_, ?_⟩
      · rcases hkind with rfl | rfl <;> exact hmoves
      · cases usesPage with
        | true => exact Or.inl rfl
        | false =>
            cases hsaved
            cases hlive
            exact Or.inr ⟨rfl, rfl⟩
  | optVirtualCall hlive =>
      rw [hsite.of_plain rfl]
      exact hsome (Moves.of_lift hlive)
  | staticCall hlive =>
      rw [hsite.of_plain rfl]
      exact hsome (Moves.of_lift hlive)
  | internal target hkind =>
      rcases hsite.of_internal hkind with ⟨address, hslot', hlow, hhigh, rfl⟩
      rw [hslot] at hslot'
      cases hslot'
      rcases hkind with rfl | rfl <;>
        exact hsome (internalAddress_moves h.code_lt h.codeSize_eq hlow hhigh)

theorem site_moves {kind : RelocKind} {v v' : UInt64} {pre pre' post : Bytes}
    {offset : UInt32} {record? : Option TagRecord}
    (hpair : Assembler.SlotPair saved ctx.host r nm base kind v v')
    (hcode : nm.code = pre ++ Bytes.ofUInt64 v ++ post)
    (hpre : pre'.length = pre.length) (hoffset : offset.toNat = pre.length)
    (hsite : Emit.DescribesSite saved nm keys ⟨offset, kind⟩ record?) :
    Moves (site ctx (r.resolved nm) base codeSize ⟨offset, kind⟩)
      ⟨pre' ++ Bytes.ofUInt64 v ++ post, record?.toList ++ records,
        (r.siteValue? nm ⟨offset, kind⟩).toList ++ values⟩ ()
      ⟨pre' ++ Bytes.ofUInt64 v' ++ post, records, values⟩ := by
  have hslot : nm.code.readSlot offset.toNat = .ok v := by
    rw [hcode, hoffset]
    exact Bytes.readSlot_append pre v post
  rcases siteValue?_moves h hpair hslot hsite with ⟨w, hmoves, hw⟩
  refine hmoves.of_bind ?_
  rcases hw with rfl | ⟨rfl, rfl⟩
  · exact write_moves (hoffset.trans hpre.symm) (Bytes.length_ofUInt64 v)
  · exact Moves.of_pure ()

theorem piece_moves {part part' pre pre' post : Bytes}
    {relocs : List Relocation} {sites : List (Option TagRecord)}
    (hpiece : Assembler.Piece saved ctx.host r nm base pre.length part part'
      relocs)
    (hcode : nm.code = pre ++ part ++ post) (hpre : pre'.length = pre.length)
    (hsites : List.Forall₂ (Emit.DescribesSite saved nm keys) relocs sites) :
    Moves (relocs.forM (site ctx (r.resolved nm) base codeSize))
      ⟨pre' ++ part ++ post, sites.filterMap id ++ records,
        relocs.filterMap (r.siteValue? nm) ++ values⟩ ()
      ⟨pre' ++ part' ++ post, records, values⟩ := by
  have hlt := h.code_lt
  rw [hcode] at hlt
  simp only [List.length_append] at hlt
  cases hpiece with
  | plain bs =>
      cases hsites
      exact Moves.of_pure ()
  | @slot kind v v' hpair =>
      cases hsites with
      | cons hsite hnil =>
          cases hnil
          rw [filterMap_singleton, filterMap_singleton]
          rw [Bytes.length_ofUInt64] at hlt
          have hoffset : (UInt32.ofNat pre.length).toNat = pre.length :=
            UInt32.toNat_ofNat_of_lt' (show _ < 2 ^ 32 by omega)
          exact (site_moves h hpair hcode hpre hoffset hsite).of_bind
            (Moves.of_pure ())
  | @virtualCall v v' hlive =>
      cases hsites with
      | cons hsite hnil =>
          cases hnil
          rw [hsite.of_plain rfl]
          rw [List.length_append, Bytes.length_ofUInt64,
            Bytes.length_ofUInt64] at hlt
          refine (virtualCall_moves hlive (Bytes.length_ofUInt64 _) ?_ ?_).of_bind
            (Moves.of_pure ())
          · rw [hpre]
            exact UInt32.toNat_ofNat_of_lt' (show _ < 2 ^ 32 by omega)
          · rw [hpre]
            exact UInt32.toNat_ofNat_of_lt' (show _ < 2 ^ 32 by omega)
  | staticStub =>
      cases hsites with
      | cons hsite hnil =>
          cases hnil
          rw [hsite.of_plain rfl]
          rw [List.length_append, Bytes.length_ofUInt64,
            Bytes.length_ofUInt64] at hlt
          have hjump : (UInt32.ofNat (pre.length + 8)).toUInt64 =
              (UInt32.ofNat pre.length).toUInt64 + 8 :=
            toUInt64_ofNat_add_eight (by omega)
          rw [UInt64.add_assoc base, ← hjump]
          refine (staticStub_moves (Bytes.length_ofUInt64 _) ?_ ?_).of_bind
            (Moves.of_pure ())
          · rw [hpre]
            exact UInt32.toNat_ofNat_of_lt' (show _ < 2 ^ 32 by omega)
          · rw [hpre]
            exact UInt32.toNat_ofNat_of_lt' (show _ < 2 ^ 32 by omega)

theorem pieces_moves {code code' post : Bytes} {relocs : List Relocation}
    {sites : List (Option TagRecord)}
    (hpieces : Assembler.Pieces saved ctx.host r nm base code code' relocs)
    (hcode : nm.code = code ++ post)
    (hsites : List.Forall₂ (Emit.DescribesSite saved nm keys) relocs sites) :
    Moves (relocs.forM (site ctx (r.resolved nm) base codeSize))
      ⟨code ++ post, sites.filterMap id ++ records,
        relocs.filterMap (r.siteValue? nm) ++ values⟩ ()
      ⟨code' ++ post, records, values⟩ := by
  induction hpieces generalizing post sites records values with
  | nil =>
      cases hsites
      exact Moves.of_pure ()
  | @snoc code code' part part' relocs more hpieces hpart ih =>
      rcases forall₂_append_left hsites with ⟨before, after, rfl, hbefore, hafter⟩
      have hfirst := @ih (after.filterMap id ++ records)
        (more.filterMap (r.siteValue? nm) ++ values) (part ++ post) before
        (hcode.trans (List.append_assoc code part post)) hbefore
      have hsecond := @piece_moves records values _ _ _ _ _ _ _ h _ _ _ _ _ _ _
        hpart hcode hpieces.length_eq hafter
      rw [List.filterMap_append, List.filterMap_append]
      simp only [List.append_assoc] at hfirst hsecond ⊢
      exact hfirst.of_forM_append hsecond

end

theorem finish_moves : Moves finish ⟨code, [], []⟩ () ⟨code, [], []⟩ := by
  intro state hstate
  refine ⟨state, ?_, hstate⟩
  have hvalues := hstate.values_eq
  have hend : ∃ next, TagRecord.decodeEnd state.tags = .ok () next := by
    have htags := hstate.tags
    cases htags with
    | @finish _ next hread => exact ⟨next, Blob.decodeEnd_eq hread⟩
  rcases hend with ⟨next, hend⟩
  unfold finish
  rw [run_get_bind, hend]
  show (if state.values.length ≠ 0 then _ else _ : Replaying Unit) state = _
  rw [hvalues]
  rfl

end Replay

/-- Reviving a blob of the saved method, once its names are resolved, gives the
twin. -/
theorem Blob.revive_eq_twin {saved : Host} {r : Renaming} {keys : List MetaKey}
    {nm twin : CompiledMethod} {ctx : ReviveContext} {b : Blob}
    {metas oops : List TagRecord} {sites : List (Option TagRecord)}
    (h : ReviveContext.Revives saved r keys nm ctx)
    (hcode : nm.code.length < 2 ^ 32)
    (htwins : Assembler.Twins saved ctx.host r nm twin)
    (hbase : twin.base = ctx.host.installAddress ctx.method)
    (hstores : b.Stores nm metas oops (sites.filterMap id))
    (hsites : List.Forall₂ (Emit.DescribesSite saved nm keys)
      nm.relocations sites) :
    b.revive ctx (r.resolved nm) = .ok twin := by
  have hreplays : Replay.Replays saved r keys nm ctx b.header.codeSize :=
    ⟨h, hcode, hstores.codeSize_eq⟩
  have hmoves : Replay.Moves (nm.relocations.forM (Replay.site ctx
      (r.resolved nm) twin.base b.header.codeSize))
      ⟨nm.code ++ [], sites.filterMap id ++ [],
        (r.resolved nm).values ++ []⟩ () ⟨twin.code ++ [], [], []⟩ :=
    Replay.pieces_moves hreplays htwins.pieces (List.append_nil _).symm hsites
  rw [List.append_nil, List.append_nil, List.append_nil, List.append_nil]
    at hmoves
  have hrun : Replay.Moves (Replay.run ctx (r.resolved nm) twin.base
      b.header.codeSize nm.relocations)
      ⟨nm.code, sites.filterMap id, (r.resolved nm).values⟩ ()
      ⟨twin.code, [], []⟩ :=
    hmoves.of_bind Replay.finish_moves
  have hstart : Replay.Point.Is
      ⟨nm.code, sites.filterMap id, (r.resolved nm).values⟩
      { code := b.code, tags := { bytes := b.tagReloc },
        values := (r.resolved nm).values } :=
    ⟨hstores.code_eq, hstores.sites_held, rfl⟩
  rcases hrun _ hstart with ⟨done, hdone, hend⟩
  have hcodeEq : done.code = twin.code := hend.code_eq
  unfold Blob.revive
  rw [← hbase, hstores.relocations_eq]
  show ((Replay.run ctx (r.resolved nm) twin.base b.header.codeSize
    nm.relocations) _ >>= fun _ => _) = _
  rw [hdone]
  show (b.stackMaps >>= fun _ => _) = _
  rw [hstores.stackMaps_eq]
  show (b.dependencies >>= fun _ => _) = _
  rw [hstores.dependencies_eq]
  show (b.speculations >>= fun _ => _) = _
  rw [hstores.speculations_eq]
  rw [← htwins.eq_twin]
  show Except.ok _ = _
  rw [hcodeEq, hstores.entry_eq, hstores.verifiedEntry_eq, h.method_eq]
  rfl

end CodeCache

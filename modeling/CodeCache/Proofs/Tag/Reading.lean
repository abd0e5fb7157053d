import Mathlib.Data.List.Forall2
import CodeCache.Blob.Resolve
import CodeCache.Proofs.Bytes.Reading
import CodeCache.Proofs.Work

/-!
# What a tag stream holds

Streams are read in several ways: record by record up to a count, or in one scan
up to the end mark. All of them agree with one relation, which says which
records stand at a cursor before the end mark.
-/

namespace CodeCache

namespace TagRecord

/-!
## Progress
-/

theorem within_advances {α : Type} {size start : Nat} {reader : Read α}
    (h : Advances size reader) :
    Advances size (within start reader) :=
  h.of_mapError _

theorem loaderOf_advances (start : Nat) (code : UInt16) :
    Advances 0 (loaderOf start code) := by
  unfold loaderOf
  split
  · exact Advances.of_pure _
  · exact Advances.of_throw _

theorem readText_advances (start : Nat) : Advances 0 (readText start) := by
  unfold readText
  refine Advances.mono ((within_advances Advances.of_uint32).of_bind
    (n := 0) fun size => ?_) (Nat.zero_le _)
  refine Advances.mono ((within_advances (Advances.of_bytes _)).of_bind
    (n := 0) fun bs => ?_) (Nat.zero_le _)
  split
  · exact Advances.of_pure _
  · exact Advances.of_throw _

theorem readState_advances (start : Nat) : Advances 0 (readState start) := by
  unfold readState
  refine Advances.mono ((within_advances Advances.of_uint32).of_bind
    (n := 0) fun code => ?_) (Nat.zero_le _)
  split
  · exact Advances.of_pure _
  · exact Advances.of_throw _

theorem decodeOperands_advances (start : Nat) (tag half : UInt16) :
    Advances 0 (decodeOperands start tag half) := by
  have hword : ∀ f : UInt32 → TagRecord,
      Advances 0 (within start Read.uint32 >>= fun v => pure (f v)) :=
    fun f => ((within_advances Advances.of_uint32).of_bind
      fun _ => Advances.of_pure _).mono (Nat.zero_le _)
  have hclass : ∀ f : Loader → UInt32 → InitState → TagRecord,
      Advances 0 (loaderOf start half >>= fun loader =>
        within start Read.uint32 >>= fun index =>
          readState start >>= fun state => pure (f loader index state)) := by
    intro f
    refine ((loaderOf_advances start half).of_bind fun loader =>
      ((within_advances Advances.of_uint32).of_bind fun index =>
        (readState_advances start).of_bind fun state =>
          Advances.of_pure _)).mono (Nat.zero_le _)
  unfold decodeOperands
  split
  · exact Advances.of_throw _
  · split
    · exact hword _
    · exact Advances.of_throw _
  · exact (readText_advances start).of_bind fun _ => Advances.of_pure _
  · exact (loaderOf_advances start half).of_bind fun _ => Advances.of_pure _
  · refine ((within_advances Advances.of_uint32).of_bind (n := 0)
      fun index => ?_).mono (Nat.zero_le _)
    split
    · exact Advances.of_pure _
    · exact Advances.of_throw _
  · exact Advances.of_throw _
  · exact Advances.of_pure _
  · exact hword _
  · exact hclass _
  · exact hclass _
  · refine ((loaderOf_advances start half).of_bind fun loader =>
      (hword fun index => method loader index)).mono (Nat.zero_le _)
  · exact Advances.of_pure _
  · exact Advances.of_pure _
  · exact Advances.of_pure _
  · exact Advances.of_throw _

theorem decode_advances : Advances 4 decode := by
  unfold decode
  refine (Advances.of_position.of_bind (n := 4) fun start => ?_).mono
    (Nat.le_refl _)
  split
  · exact Advances.of_throw _
  · refine ((within_advances Advances.of_uint16).of_bind (n := 2)
      fun tag => ?_).mono (Nat.le_refl _)
    refine ((within_advances Advances.of_uint16).of_bind (n := 0)
      fun half => ?_).mono (Nat.le_refl _)
    refine ((decodeOperands_advances start tag half).of_bind (n := 0)
      fun record => ?_).mono (Nat.le_refl _)
    exact Advances.of_align.of_bind fun _ => Advances.of_pure _

end TagRecord

namespace TagStream

/-!
## The records at a cursor
-/

/-- The records that are read from a cursor on, up to the end mark. -/
inductive Holds : Cursor → List TagRecord → Prop where
  | finish {c next : Cursor} (h : TagRecord.decode c = .ok .finish next) :
      Holds c []
  | cons {c next : Cursor} {record : TagRecord} {records : List TagRecord}
      (h : TagRecord.decode c = .ok record next) (hne : record ≠ .finish)
      (rest : Holds next records) :
      Holds c (record :: records)

theorem Holds.length_le {c : Cursor} {records : List TagRecord}
    (h : Holds c records) :
    c.position + records.length ≤ c.bytes.length := by
  induction h with
  | finish h =>
      rcases TagRecord.decode_advances _ _ _ h with ⟨_, _, hin⟩
      have hend := hin (by omega)
      simp only [List.length_nil]
      omega
  | cons h hne rest ih =>
      rcases TagRecord.decode_advances _ _ _ h with ⟨hbytes, hpos, _⟩
      rw [hbytes] at ih
      simp only [List.length_cons]
      omega

theorem Holds.scanFrom {c : Cursor} {records : List TagRecord}
    (h : Holds c records) {steps : Nat} (hsteps : records.length < steps) :
    (TagStream.scanFrom steps c).fault = none ∧
      (TagStream.scanFrom steps c).records.map (·.2) = records := by
  induction h generalizing steps with
  | finish h =>
      cases steps with
      | zero => exact absurd hsteps (Nat.not_lt_zero _)
      | succ steps =>
          unfold TagStream.scanFrom
          rw [h]
          exact ⟨rfl, rfl⟩
  | @cons c next record records h hne rest ih =>
      cases steps with
      | zero => exact absurd hsteps (Nat.not_lt_zero _)
      | succ steps =>
          rcases ih (Nat.lt_of_succ_lt_succ hsteps) with ⟨hfault, hrecords⟩
          have hscan : TagStream.scanFrom (steps + 1) c =
              { TagStream.scanFrom steps next with
                records := (c.position, record) ::
                  (TagStream.scanFrom steps next).records } := by
            rw [TagStream.scanFrom, h]
            cases record <;> first | rfl | exact absurd rfl hne
          rw [hscan]
          refine ⟨hfault, ?_⟩
          rw [List.map_cons, hrecords]

theorem Holds.scan {bs : Bytes} {records : List TagRecord}
    (h : Holds { bytes := bs } records) :
    (TagStream.scan bs).fault = none ∧
      (TagStream.scan bs).records.map (·.2) = records := by
  refine h.scanFrom ?_
  have hle := h.length_le
  simp only [Nat.zero_add] at hle
  omega

theorem Holds.walk_eq {α : Type} {bs : Bytes} {records : List TagRecord}
    (h : Holds { bytes := bs } records) (visit : TagRecord → Except Error α) :
    walk (fun _ record => visit record) bs = records.mapM visit := by
  rcases h.scan with ⟨hfault, hrecords⟩
  unfold walk
  simp only [hfault]
  rw [← hrecords, List.mapM_map]
  exact bind_pure _

/-- A scan without a fault ended at an end mark, unless it had too few steps. -/
theorem holds_of_scanFrom {steps : Nat} {c : Cursor}
    (h : (scanFrom steps c).fault = none) (hpos : 0 < steps)
    (hsteps : c.bytes.length < c.position + steps) :
    Holds c ((scanFrom steps c).records.map (·.2)) := by
  induction steps generalizing c with
  | zero => exact absurd hpos (Nat.lt_irrefl 0)
  | succ steps ih =>
      cases hdecode : TagRecord.decode c with
      | error e next =>
          rw [scanFrom, hdecode] at h
          cases h
      | ok record next =>
          rcases TagRecord.decode_advances _ _ _ hdecode with
            ⟨hbytes, hnext, hin⟩
          have hinside := hin (by decide)
          by_cases hfinish : record = .finish
          · subst hfinish
            rw [scanFrom, hdecode]
            exact .finish hdecode
          · have hscan : scanFrom (steps + 1) c =
                { scanFrom steps next with
                  records := (c.position, record) ::
                    (scanFrom steps next).records } := by
              rw [scanFrom, hdecode]
              cases record <;> first | rfl | exact absurd rfl hfinish
            rw [hscan] at h ⊢
            apply Holds.cons hdecode hfinish
            apply ih h
            · omega
            · rw [hbytes]
              omega

theorem holds_of_walk {α : Type} {visit : Nat → TagRecord → Except Error α}
    {bs : Bytes} {results : List α} (h : walk visit bs = .ok results) :
    Holds { bytes := bs } ((scan bs).records.map (·.2)) ∧
      ((scan bs).records.mapM fun (position, record) => visit position record) =
        .ok results := by
  unfold walk at h
  rcases of_bind_eq_ok h with ⟨visited, hvisit, h⟩
  cases hfault : (scan bs).fault with
  | some e =>
      rw [hfault] at h
      cases h
  | none =>
      rw [hfault] at h
      cases h
      refine ⟨holds_of_scanFrom hfault (Nat.succ_pos _) ?_, hvisit⟩
      rw [Nat.zero_add]
      exact Nat.lt_succ_self _

theorem Holds.decode {bs : Bytes} {records : List TagRecord}
    (h : Holds { bytes := bs } records) :
    TagStream.decode bs = .ok records := by
  have hvisit : records.mapM (.ok : TagRecord → Except Error TagRecord) =
      .ok (records.map id) :=
    List.mapM_pure
  rw [List.map_id] at hvisit
  exact (h.walk_eq .ok).trans hvisit

theorem Holds.metaIndices {bs : Bytes} {records : List TagRecord}
    (h : Holds { bytes := bs } records) :
    TagStream.metaIndices bs =
      .ok (records.filterMap TagRecord.metaIndex?) := by
  have hvisit : records.mapM
      (fun record => (.ok record.metaIndex? : Except Error (Option UInt32))) =
        .ok (records.map TagRecord.metaIndex?) :=
    List.mapM_pure
  unfold TagStream.metaIndices
  rw [h.walk_eq fun record => .ok record.metaIndex?, hvisit]
  show Except.ok ((records.map TagRecord.metaIndex?).filterMap id) = _
  rw [List.filterMap_map]
  rfl

theorem Holds.reindex {bs bs' : Bytes} {records : List TagRecord}
    {f : UInt32 → Except Error UInt32} (h : Holds { bytes := bs } records)
    (hrun : TagStream.reindex f bs = .ok bs') :
    ∃ records', bs' = encode records' ∧
      List.Forall₂ (fun r r' => r.mapIndexM f = .ok r') records records' := by
  unfold TagStream.reindex at hrun
  rw [h.walk_eq fun record => record.mapIndexM f] at hrun
  cases hmap : records.mapM fun record => record.mapIndexM f with
  | error e =>
      rw [hmap] at hrun
      cases hrun
  | ok records' =>
      rw [hmap] at hrun
      cases hrun
      exact ⟨records', rfl, forall₂_of_mapM hmap⟩

theorem of_checkIndices {count : Nat} {bs : Bytes}
    (h : checkIndices count bs = .ok ()) :
    ∃ records, Holds { bytes := bs } records ∧
      ∀ r ∈ records, ∀ i, r.metaIndex? = some i → i.toNat < count := by
  unfold checkIndices at h
  rcases of_bind_eq_ok h with ⟨units, hwalk, -⟩
  rcases holds_of_walk hwalk with ⟨hholds, hvisit⟩
  refine ⟨_, hholds, ?_⟩
  intro r hr i hi
  rcases List.mem_map.mp hr with ⟨⟨position, r'⟩, hmem, rfl⟩
  rcases exists_of_mem_left (forall₂_of_mapM hvisit) hmem with ⟨_, -, hrun⟩
  dsimp only at hi hrun
  rw [hi] at hrun
  dsimp only at hrun
  split at hrun
  · assumption
  · cases hrun

end TagStream

/-!
## Arrays
-/

namespace Blob

theorem readFrom_apply {α : Type} (reader : Read α) (c : Cursor)
    (space : MetaSpace) :
    readFrom reader c space =
      match reader c with
      | .ok a next => .ok (a, next) space
      | .error e _ => .error e space := by
  unfold readFrom
  cases reader c <;> rfl

theorem readFrom_ensures {α : Type} {inv : MetaSpace → Prop} (reader : Read α)
    (c : Cursor) :
    Ensures inv (readFrom reader c)
      (fun result => reader c = .ok result.1 result.2) := by
  intro space hspace
  rw [readFrom_apply]
  cases hread : reader c with
  | ok a next => exact ⟨hspace, rfl⟩
  | error e next => exact hspace

theorem of_decodeEnd {c next : Cursor}
    (h : TagRecord.decodeEnd c = .ok () next) :
    TagRecord.decode c = .ok .finish next := by
  change EStateM.bind TagRecord.decode _ c = _ at h
  unfold EStateM.bind at h
  cases hread : TagRecord.decode c with
  | error e s =>
      rw [hread] at h
      cases h
  | ok record s =>
      rw [hread] at h
      cases record with
      | finish =>
          cases h
          rfl
      | _ => cases h

theorem decodeEnd_eq {c next : Cursor}
    (h : TagRecord.decode c = .ok .finish next) :
    TagRecord.decodeEnd c = .ok () next := by
  change EStateM.bind TagRecord.decode _ c = _
  unfold EStateM.bind
  rw [h]
  rfl

theorem decodeEnd_of_record {c next : Cursor} {record : TagRecord}
    (h : TagRecord.decode c = .ok record next) (hne : record ≠ .finish) :
    ∃ position rest,
      TagRecord.decodeEnd c = .error (.corruption (.tagNotEnd position record)) rest := by
  change ∃ position rest, EStateM.bind TagRecord.decode _ c = .error _ rest
  unfold EStateM.bind
  rw [h]
  cases record with
  | finish => exact absurd rfl hne
  | _ => exact ⟨_, _, rfl⟩

theorem resolveArray_ensures {α : Type} {inv : MetaSpace → Prop}
    {value : TagRecord → InSpace α} {names : TagRecord → α → Prop}
    (hvalue : ∀ record, Ensures inv (value record) (names record))
    (hfinish : ∀ a, ¬ names .finish a) (n : Nat) (c : Cursor) :
    Ensures inv (resolveArray value n c)
      (fun as => ∃ records, TagStream.Holds c records ∧
        List.Forall₂ names records as) := by
  induction n generalizing c with
  | zero =>
      refine (readFrom_ensures TagRecord.decodeEnd c).of_bind ?_
      intro result hresult
      exact Ensures.of_pure ⟨[], .finish (of_decodeEnd hresult), .nil⟩
  | succ n ih =>
      refine (readFrom_ensures TagRecord.decode c).of_bind ?_
      rintro ⟨record, next⟩ hread
      refine (hvalue record).of_bind ?_
      intro a ha
      refine (ih next).of_bind ?_
      rintro as ⟨records, hholds, hall⟩
      have hne : record ≠ .finish := by
        intro heq
        rw [heq] at ha
        exact hfinish a ha
      exact Ensures.of_pure
        ⟨record :: records, .cons hread hne hholds, .cons ha hall⟩

end Blob

end CodeCache

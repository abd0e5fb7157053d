import CodeCache.Proofs.Bytes.Texts
import CodeCache.Proofs.Tag.Storage

/-!
# Passes over a tag stream

A pass walks through the bytes of a stream on its own, yet sees the records that
decoding answers, whatever stands in the padding or behind the end mark. Where
decoding fails, no pass gets through.
-/

namespace CodeCache

/-!
## What is read is short
-/

namespace Read

theorem bytes_ensures (size : Nat) :
    Ensures (fun _ => True) (bytes size) (·.length = size) := by
  intro c _
  unfold bytes
  cases hslice : c.bytes.slice c.position size with
  | ok part => exact ⟨trivial, Bytes.length_of_slice hslice⟩
  | error e => trivial

end Read

namespace TagRecord

theorem within_ensures {α : Type} {reader : Read α} {Q : α → Prop} (start : Nat)
    (h : Ensures (fun _ => True) reader Q) :
    Ensures (fun _ => True) (within start reader) Q := by
  intro c _
  have hout := h c trivial
  unfold within Read.mapError
  cases hrun : reader c with
  | ok a next =>
      rw [hrun] at hout
      exact hout
  | error e next => trivial

theorem readText_ensures (start : Nat) :
    Ensures (fun _ => True) (readText start)
      (fun s => (Utf8.encode s).length < 2 ^ 32) := by
  unfold readText
  refine .of_bind (.of_true _) fun size _ => ?_
  refine .of_bind (within_ensures start (Read.bytes_ensures size.toNat))
    fun bs hbs => ?_
  split
  · rename_i s hdecode
    apply Ensures.of_pure
    rw [Utf8.length_encode_of_decode hdecode, hbs]
    exact size.toNat_lt
  · exact .of_throw _

theorem decodeOperands_ensures (start : Nat) (tag half : UInt16) :
    Ensures (fun _ => True) (decodeOperands start tag half) IsShort := by
  unfold decodeOperands
  split
  · exact .of_throw _
  · split
    · exact .of_bind (.of_true _) fun _ _ => .of_pure trivial
    · exact .of_throw _
  · exact .of_bind (readText_ensures start) fun _ hs => .of_pure hs
  · exact .of_bind (.of_true _) fun _ _ => .of_pure trivial
  · refine .of_bind (.of_true _) fun index _ => ?_
    split
    · exact .of_pure trivial
    · exact .of_throw _
  · exact .of_throw _
  · exact .of_pure trivial
  · exact .of_bind (.of_true _) fun _ _ => .of_pure trivial
  · exact .of_bind (.of_true _) fun _ _ => .of_bind (.of_true _) fun _ _ =>
      .of_bind (.of_true _) fun _ _ => .of_pure trivial
  · exact .of_bind (.of_true _) fun _ _ => .of_bind (.of_true _) fun _ _ =>
      .of_bind (.of_true _) fun _ _ => .of_pure trivial
  · exact .of_bind (.of_true _) fun _ _ => .of_bind (.of_true _) fun _ _ =>
      .of_pure trivial
  · exact .of_pure trivial
  · exact .of_pure trivial
  · exact .of_pure trivial
  · exact .of_throw _

theorem decode_ensures : Ensures (fun _ => True) decode IsShort := by
  unfold decode
  refine .of_bind (.of_true _) fun start _ => .of_check fun _ => ?_
  refine .of_bind (.of_true _) fun tag _ => .of_bind (.of_true _) fun half _ => ?_
  refine .of_bind (decodeOperands_ensures start tag half) fun r hr => ?_
  exact .of_bind (.of_true _) fun _ _ => .of_pure hr

/-!
## One record
-/

def mapIndex (f : UInt32 → UInt32) : TagRecord → TagRecord
  | klass loader index minState => klass loader (f index) minState
  | mirror loader index minState => mirror loader (f index) minState
  | method loader index => method loader (f index)
  | record => record

def knownObject? : TagRecord → Option KnownObject
  | knownObject o => some o
  | _ => none

theorem mapIndexM_eq_ok {f : UInt32 → Except Error UInt32} {g : UInt32 → UInt32}
    {r : TagRecord} (h : ∀ i, r.metaIndex? = some i → f i = .ok (g i)) :
    r.mapIndexM f = .ok (r.mapIndex g) := by
  cases r with
  | klass loader i state => exact congrArg (· >>= _) (h i rfl)
  | mirror loader i state => exact congrArg (· >>= _) (h i rfl)
  | method loader i => exact congrArg (· >>= _) (h i rfl)
  | _ => rfl

@[simp] theorem encodedSize_mapIndex (g : UInt32 → UInt32) (r : TagRecord) :
    (r.mapIndex g).encodedSize = r.encodedSize := by
  cases r <;> rfl

theorem IsShort.mapIndex {r : TagRecord} (h : r.IsShort) (g : UInt32 → UInt32) :
    (r.mapIndex g).IsShort := by
  cases r with
  | text s => exact h
  | _ => trivial

theorem mapIndex_ne_finish {r : TagRecord} (h : r ≠ .finish)
    (g : UInt32 → UInt32) :
    r.mapIndex g ≠ .finish := by
  cases r with
  | finish => exact absurd rfl h
  | _ => exact nofun

end TagRecord

namespace TagStream

variable {bs : Bytes} {records : List TagRecord}

/-- Records that a stream can hold: none is an end mark, and no text is longer
than its length field can say. -/
def Storable (records : List TagRecord) : Prop :=
  ∀ r ∈ records, r ≠ .finish ∧ r.IsShort

theorem Storable.map (h : Storable records) (g : UInt32 → UInt32) :
    Storable (records.map (TagRecord.mapIndex g)) := by
  intro r hr
  rcases List.mem_map.mp hr with ⟨s, hs, rfl⟩
  rcases h s hs with ⟨hne, hshort⟩
  exact ⟨TagRecord.mapIndex_ne_finish hne g, hshort.mapIndex g⟩

theorem Holds.storable {c : Cursor} (h : Holds c records) : Storable records := by
  induction h with
  | finish => exact nofun
  | cons hdecode hne _ ih =>
      intro r hr
      rcases List.mem_cons.mp hr with rfl | hmem
      · exact ⟨hne, (TagRecord.decode_ensures.ok_and_post trivial hdecode).2⟩
      · exact ih r hmem

theorem length_encode_map (g : UInt32 → UInt32) (records : List TagRecord) :
    (encode (records.map (TagRecord.mapIndex g))).length =
      (encode records).length := by
  rw [length_encode, length_encode, List.map_map]
  congr 3
  funext r
  exact TagRecord.encodedSize_mapIndex g r

theorem Storable.decode_encode (h : Storable records) :
    decode (encode records) = .ok records :=
  (holds_encode (fun r hr => (h r hr).2) fun r hr => (h r hr).1).decode

/-!
## Walks
-/

theorem holds_of_decode (h : decode bs = .ok records) :
    Holds { bytes := bs } records := by
  rcases holds_of_walk h with ⟨hholds, -⟩
  rw [hholds.decode] at h
  cases h
  exact hholds

theorem walk_of_fault {α : Type} {e : Error} (h : (scan bs).fault = some e)
    (f : TagRecord → α) :
    walk (fun _ r => .ok (f r)) bs = .error e := by
  have hvisit : (scan bs).records.mapM
      (fun entry => (.ok (f entry.2) : Except Error α)) =
        .ok ((scan bs).records.map fun entry => f entry.2) :=
    List.mapM_pure
  unfold walk
  simp only [h]
  rw [hvisit]
  rfl

theorem walk_eq {α : Type} (f : TagRecord → α) (bs : Bytes) :
    walk (fun _ r => .ok (f r)) bs = (decode bs).map (List.map f) := by
  cases hfault : (scan bs).fault with
  | some e =>
      have hdecode : decode bs = .error e := walk_of_fault hfault id
      rw [hdecode, walk_of_fault hfault f]
      rfl
  | none =>
      have hholds : Holds { bytes := bs } ((scan bs).records.map (·.2)) := by
        refine holds_of_scanFrom hfault (Nat.succ_pos _) ?_
        rw [Nat.zero_add]
        exact Nat.lt_succ_self _
      have hvisit : ((scan bs).records.map (·.2)).mapM
          (fun r => (.ok (f r) : Except Error α)) =
            .ok (((scan bs).records.map (·.2)).map f) :=
        List.mapM_pure
      rw [hholds.decode, hholds.walk_eq fun r => .ok (f r), hvisit]
      rfl

theorem exists_walk_eq_error {α : Type} {e : Error} (h : decode bs = .error e)
    (visit : Nat → TagRecord → Except Error α) :
    ∃ e', walk visit bs = .error e' := by
  cases hwalk : walk visit bs with
  | error e' => exact ⟨e', rfl⟩
  | ok results =>
      rw [(holds_of_walk hwalk).1.decode] at h
      cases h

theorem Holds.exists_walk_eq_ok {α : Type} (h : Holds { bytes := bs } records)
    {visit : Nat → TagRecord → Except Error α}
    (hvisit : ∀ r ∈ records, ∀ position, ∃ a, visit position r = .ok a) :
    ∃ results, walk visit bs = .ok results := by
  rcases h.scan with ⟨hfault, hrecords⟩
  unfold walk
  simp only [hfault]
  apply exists_bind_eq_ok
  · apply exists_mapM_eq_ok
    rintro ⟨position, r⟩ hmem
    apply hvisit
    rw [← hrecords]
    exact List.mem_map_of_mem hmem
  · exact fun results _ => ⟨results, rfl⟩

/-!
## Each pass
-/

theorem metaIndices_eq (bs : Bytes) :
    metaIndices bs =
      (decode bs).map (List.filterMap TagRecord.metaIndex?) := by
  unfold metaIndices
  rw [walk_eq]
  cases decode bs with
  | error e => rfl
  | ok records =>
      change Except.ok ((records.map TagRecord.metaIndex?).filterMap id) = _
      rw [List.filterMap_map]
      rfl

theorem knownObjects_eq (bs : Bytes) :
    knownObjects bs =
      (decode bs).map (List.filterMap TagRecord.knownObject?) := by
  have hvisit : knownObjects bs = (·.filterMap id) <$>
      walk (fun _ r => .ok r.knownObject?) bs := by
    unfold knownObjects
    congr 2
  rw [hvisit, walk_eq]
  cases decode bs with
  | error e => rfl
  | ok records =>
      change Except.ok ((records.map TagRecord.knownObject?).filterMap id) = _
      rw [List.filterMap_map]
      rfl

theorem checkIndices_iff (h : decode bs = .ok records) (count : Nat) :
    checkIndices count bs = .ok () ↔
      ∀ r ∈ records, ∀ i, r.metaIndex? = some i → i.toNat < count := by
  have hholds := holds_of_decode h
  constructor
  · intro hcheck
    rcases of_checkIndices hcheck with ⟨records', hholds', hbelow⟩
    rw [hholds'.decode] at h
    cases h
    exact hbelow
  · intro hbelow
    have hpasses : ∃ u, checkIndices count bs = .ok u := by
      unfold checkIndices
      refine exists_bind_eq_ok (hholds.exists_walk_eq_ok ?_) fun _ _ => ⟨(), rfl⟩
      intro r hr position
      cases hindex : r.metaIndex? with
      | none => exact ⟨(), rfl⟩
      | some i => exact ⟨(), if_pos (hbelow r hr i hindex)⟩
    exact hpasses.choose_spec

theorem reindex_eq (h : decode bs = .ok records)
    {f : UInt32 → Except Error UInt32} {g : UInt32 → UInt32}
    (hf : ∀ r ∈ records, ∀ i, r.metaIndex? = some i → f i = .ok (g i)) :
    reindex f bs = .ok (encode (records.map (TagRecord.mapIndex g))) := by
  have hrecords : records.mapM (TagRecord.mapIndexM f) =
      .ok (records.map (TagRecord.mapIndex g)) :=
    mapM_eq_ok_map fun r hr => TagRecord.mapIndexM_eq_ok (hf r hr)
  unfold reindex
  rw [(holds_of_decode h).walk_eq (TagRecord.mapIndexM f), hrecords]
  rfl

/-- A stored list is decoded again, and every pass sees what decoding answers, of
whatever bytes. A pass over bytes that cannot be decoded fails, the listing
passes with the same failure. -/
theorem passes_see_decoded :
    (∀ records, Storable records →
      (encode records).length = 8 + (records.map TagRecord.encodedSize).sum ∧
        decode (encode records) = .ok records) ∧
    (∀ bs records, decode bs = .ok records →
      (∀ (f : UInt32 → Except Error UInt32) (g : UInt32 → UInt32),
        (∀ r ∈ records, ∀ i, r.metaIndex? = some i → f i = .ok (g i)) →
        ∃ bs', reindex f bs = .ok bs' ∧
          decode bs' = .ok (records.map (TagRecord.mapIndex g)) ∧
          ∀ stored, Storable stored → bs = encode stored →
            bs'.length = bs.length) ∧
      metaIndices bs = .ok (records.filterMap TagRecord.metaIndex?) ∧
      knownObjects bs = .ok (records.filterMap TagRecord.knownObject?) ∧
      ∀ count, checkIndices count bs = .ok () ↔
        ∀ r ∈ records, ∀ i, r.metaIndex? = some i → i.toNat < count) ∧
    ∀ bs e, decode bs = .error e →
      (∀ f, ∃ e', reindex f bs = .error e') ∧
      metaIndices bs = .error e ∧ knownObjects bs = .error e := by
  refine ⟨?stored, ?decoded, ?rejected⟩
  case stored =>
    intro records hstorable
    exact ⟨length_encode records, hstorable.decode_encode⟩
  case decoded =>
    intro bs records h
    have hstorable := (holds_of_decode h).storable
    refine ⟨?_, ?_, ?_, checkIndices_iff h⟩
    · intro f g hf
      refine ⟨_, reindex_eq h hf, (hstorable.map g).decode_encode, ?_⟩
      intro stored hstored hbs
      rw [hbs, hstored.decode_encode] at h
      cases h
      rw [hbs, length_encode_map]
    · rw [metaIndices_eq, h]
      rfl
    · rw [knownObjects_eq, h]
      rfl
  case rejected =>
    intro bs e h
    refine ⟨?_, ?_, ?_⟩
    · intro f
      rcases exists_walk_eq_error h fun _ r => r.mapIndexM f with ⟨e', hwalk⟩
      unfold reindex
      rw [hwalk]
      exact ⟨e', rfl⟩
    · rw [metaIndices_eq, h]
      rfl
    · rw [knownObjects_eq, h]
      rfl

/-!
A text with a zero in it, a class with bytes in its padding, and an end mark that
lacks its own.
-/

namespace Sample

def named : List TagRecord :=
  [.text "a\x00", .klass .app 3 .linked]

def untidy : Bytes :=
  [2, 0, 0, 0, 2, 0, 0, 0, 97, 0, 7, 7, 7, 7, 7, 7,
    8, 0, 2, 0, 3, 0, 0, 0, 2, 0, 0, 0, 9, 9, 9, 9, 13, 0, 0, 0]

end Sample

theorem passes_see_decoded_of_untidy :
    decode Sample.untidy = .ok Sample.named ∧
      decode (encode Sample.named) = .ok Sample.named ∧
      metaIndices Sample.untidy = .ok [3] ∧
      ∃ bs', reindex (fun i => .ok (i + 1)) Sample.untidy = .ok bs' ∧
        decode bs' = .ok [.text "a\x00", .klass .app 4 .linked] := by
  have hdecode : decode Sample.untidy = .ok Sample.named :=
    eq_ok_of_valueWith (by decide +kernel)
  have hstorable := (holds_of_decode hdecode).storable
  rcases passes_see_decoded with ⟨hstored, hdecoded, -⟩
  rcases hdecoded _ _ hdecode with ⟨hreindex, hindices, -, -⟩
  rcases hreindex (fun i => .ok (i + 1)) (· + 1) (fun _ _ _ _ => rfl) with
    ⟨bs', hrun, hagain, -⟩
  exact ⟨hdecode, (hstored _ hstorable).2, hindices, bs', hrun, hagain⟩

end TagStream

end CodeCache

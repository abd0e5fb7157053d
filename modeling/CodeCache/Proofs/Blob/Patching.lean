import CodeCache.Proofs.Blob.Access
import CodeCache.Proofs.Blob.Lockstep
import CodeCache.Proofs.Blob.Replaying
import CodeCache.Proofs.Bytes.Slots

/-!
# The slots that a revive writes

The relocations of a blob name slots of its code, and a revive writes nowhere else. What
it writes does not come from the code: it never reads a byte of it. So the slots come out
the same whatever code was saved, also where they overlap.
-/

namespace CodeCache

/-!
## Slots that relocations name
-/

namespace RelocKind

def isRecorded : RelocKind → Bool
  | oop _ immediate => immediate
  | metadata _ immediate => immediate
  | externalWord | runtimeCall | poll _ | pollReturn _ | internalWord | sectionWord => true
  | none | virtualCall _ | optVirtualCall | staticCall | staticStub .. => false

end RelocKind

namespace Relocation

/-- The slots that a relocation names, where its site has the given record. A poll that is
skipped names none. -/
def slots (r : Relocation) (record? : Option TagRecord) : List UInt32 :=
  match r.kind with
  | .none => []
  | .poll _ | .pollReturn _ => if record? = some .skip then [] else [r.offset]
  | .virtualCall cachedValueOffset => [cachedValueOffset, r.offset]
  | .staticStub metadataOffset jumpOffset => [metadataOffset, jumpOffset]
  | _ => [r.offset]

def slotsOf : List Relocation → List TagRecord → List UInt32
  | [], _ => []
  | r :: rs, records =>
    if r.kind.isRecorded then r.slots records.head? ++ slotsOf rs records.tail
    else r.slots none ++ slotsOf rs records

theorem slotsOf_cons (r : Relocation) (rs : List Relocation) (records : List TagRecord) :
    slotsOf (r :: rs) records =
      if r.kind.isRecorded then r.slots records.head? ++ slotsOf rs records.tail
      else r.slots none ++ slotsOf rs records :=
  rfl

end Relocation

namespace TagStream

/-!
## Records between two cursors
-/

inductive Passed : Cursor → List TagRecord → Cursor → Prop where
  | nil (c : Cursor) : Passed c [] c
  | cons {c next last : Cursor} {record : TagRecord} {records : List TagRecord}
      (h : TagRecord.decode c = .ok record next) (hne : record ≠ .finish)
      (rest : Passed next records last) :
      Passed c (record :: records) last

variable {c middle last : Cursor} {records records' : List TagRecord}

theorem Passed.append (h : Passed c records middle) (h' : Passed middle records' last) :
    Passed c (records ++ records') last := by
  induction h with
  | nil => exact h'
  | cons hread hne _ ih => exact .cons hread hne (ih h')

theorem Passed.holds {next : Cursor} (h : Passed c records last)
    (hend : TagRecord.decode last = .ok .finish next) :
    Holds c records := by
  induction h with
  | nil => exact .finish hend
  | cons hread hne _ ih => exact .cons hread hne (ih hend)

end TagStream

namespace Replay

/-!
## Work that does not look at the code
-/

/-- The work took the replay from one state to another. On the way it read the records and
did the writes, and on any other code of that length it would have done the same. -/
structure Wrote {α : Type} (work : Replaying α) (state : Replay) (a : α) (state' : Replay)
    (records : List TagRecord) (ws : List SlotWrite) : Prop where
  passed : TagStream.Passed state.tags records state'.tags
  fits : state.code.HasSlots ws
  code_eq : state'.code = state.code.writeAll ws
  alike : ∀ code, code.length = state.code.length →
    work { state with code := code } = .ok (a, { state' with code := code.writeAll ws })

def Patches {α : Type} (work : Replaying α)
    (Q : α → List UInt32 → List TagRecord → Prop) : Prop :=
  ∀ state a state', work state = .ok (a, state') →
    ∃ records ws, Wrote work state a state' records ws ∧ Q a (ws.map (·.slot)) records

variable {α β : Type} {Q : α → List UInt32 → List TagRecord → Prop}

theorem Wrote.bind {work : Replaying α} {next : α → Replaying β}
    {state state' state'' : Replay} {a : α} {b : β} {records records' : List TagRecord}
    {ws ws' : List SlotWrite} (h : Wrote work state a state' records ws)
    (h' : Wrote (next a) state' b state'' records' ws') :
    Wrote (work >>= next) state b state'' (records ++ records') (ws ++ ws') := by
  have hlength : state'.code.length = state.code.length := by
    rw [h.code_eq, Bytes.length_writeAll h.fits]
  have hfits : state.code.HasSlots ws' := h'.fits.of_length hlength.symm
  constructor
  · exact h.passed.append h'.passed
  · intro w hw
    rcases List.mem_append.mp hw with hw | hw
    · exact h.fits w hw
    · exact hfits w hw
  · rw [h'.code_eq, h.code_eq, Bytes.writeAll_append]
  · intro code hcode
    have hwritten : (code.writeAll ws).length = state'.code.length := by
      rw [Bytes.length_writeAll (h.fits.of_length hcode), hcode, hlength]
    show (work { state with code := code } >>= fun x => next x.1 x.2) = _
    rw [h.alike code hcode]
    exact (h'.alike _ hwritten).trans (by rw [Bytes.writeAll_append])

namespace Patches

theorem of_pure {a : α} (h : Q a [] []) : Patches (pure a) Q := by
  intro state a' state' hrun
  cases hrun
  exact ⟨[], [], ⟨.nil _, nofun, rfl, fun _ _ => rfl⟩, h⟩

theorem of_throw (e : Error) : Patches (throw e) Q := by
  intro state a state' hrun
  cases hrun

theorem of_lift {result : Except Error α} (h : ∀ a, Q a [] []) :
    Patches (liftM result) Q := by
  intro state a state' hrun
  cases result with
  | error e => cases hrun
  | ok a' =>
      cases hrun
      exact ⟨[], [], ⟨.nil _, nofun, rfl, fun _ _ => rfl⟩, h _⟩

theorem of_bind {work : Replaying α} {next : α → Replaying β}
    {R : β → List UInt32 → List TagRecord → Prop} (h : Patches work Q)
    (hnext : ∀ a slots records, Q a slots records →
      Patches (next a) fun b slots' records' => R b (slots ++ slots') (records ++ records')) :
    Patches (work >>= next) R := by
  intro state b state'' hrun
  rcases of_bind_eq_ok (show (work state >>= fun x => next x.1 x.2) = _ from hrun) with
    ⟨⟨a, state'⟩, hfirst, hsecond⟩
  rcases h state a state' hfirst with ⟨records, ws, hwrote, hQ⟩
  rcases hnext a _ _ hQ state' b state'' hsecond with ⟨records', ws', hwrote', hR⟩
  refine ⟨records ++ records', ws ++ ws', hwrote.bind hwrote', ?_⟩
  rw [List.map_append]
  exact hR

theorem mono {work : Replaying α} {R : α → List UInt32 → List TagRecord → Prop}
    (h : Patches work Q) (hR : ∀ a slots records, Q a slots records → R a slots records) :
    Patches work R := by
  intro state a state' hrun
  rcases h state a state' hrun with ⟨records, ws, hwrote, hQ⟩
  exact ⟨records, ws, hwrote, hR _ _ _ hQ⟩

theorem of_bind_pure {work : Replaying α} {f : α → β}
    {R : β → List UInt32 → List TagRecord → Prop}
    (h : Patches work fun a slots records => R (f a) slots records) :
    Patches (work >>= fun a => pure (f a)) R := by
  refine h.of_bind fun a slots records hR => of_pure ?_
  rw [List.append_nil, List.append_nil]
  exact hR

end Patches

theorem value_patches : Patches value fun _ slots records => slots = [] ∧ records = [] := by
  intro state v state' hrun
  unfold value at hrun
  rw [run_get_bind] at hrun
  cases hvalues : state.values with
  | nil =>
      rw [hvalues] at hrun
      cases hrun
  | cons first rest =>
      rw [hvalues] at hrun
      cases hrun
      refine ⟨[], [], ⟨.nil _, nofun, rfl, fun code _ => ?_⟩, rfl, rfl⟩
      unfold value
      rw [run_get_bind]
      dsimp only
      rw [hvalues]
      rfl

theorem record_patches (site : UInt32) :
    Patches (record site) fun record slots records => slots = [] ∧ records = [record] := by
  intro state answer state' hrun
  cases hread : TagRecord.decode state.tags with
  | error e next =>
      unfold record at hrun
      rw [run_get_bind, hread] at hrun
      cases hrun
  | ok record next =>
      by_cases hfinish : record = .finish
      · subst hfinish
        rw [record_of_end site hread] at hrun
        cases hrun
      · rw [record_eq site hread hfinish] at hrun
        cases hrun
        refine ⟨_, [], ⟨.cons hread hfinish (.nil _), nofun, rfl, ?_⟩, rfl, rfl⟩
        exact fun code _ => record_eq site hread hfinish

theorem write_eq {state : Replay} {slot : UInt32} (v : UInt64)
    (h : slot.toNat + 8 ≤ state.code.length) :
    write slot v state =
      .ok ((), { state with code := state.code.overwrite slot.toNat (Bytes.ofUInt64 v) }) := by
  have hwrite : state.code.writeSlot slot.toNat v =
      .ok (state.code.overwrite slot.toNat (Bytes.ofUInt64 v)) :=
    if_pos h
  unfold write
  show ((state.code.writeSlot slot.toNat v >>= fun code =>
    pure (code, state)) >>= fun result => _) = _
  rw [hwrite]
  rfl

theorem write_patches (slot : UInt32) (v : UInt64) :
    Patches (write slot v) fun _ slots records => slots = [slot] ∧ records = [] := by
  intro state _ state' hrun
  have hfits : slot.toNat + 8 ≤ state.code.length := by
    by_contra hout
    have hwrite : state.code.writeSlot slot.toNat v =
        .error (.corruption (.patchSlot slot.toNat state.code.length)) :=
      if_neg hout
    unfold write at hrun
    change ((state.code.writeSlot slot.toNat v >>= fun code =>
      pure (code, state)) >>= fun result => _) = _ at hrun
    rw [hwrite] at hrun
    cases hrun
  rw [write_eq v hfits] at hrun
  cases hrun
  refine ⟨[], [⟨slot, v⟩], ⟨.nil _, ?_, rfl, fun code hcode => ?_⟩, rfl, rfl⟩
  · intro w hw
    cases List.mem_singleton.mp hw
    exact hfits
  · exact write_eq v (by rw [hcode]; exact hfits)

/-!
## Sites
-/

abbrev ReadsOne {α : Type} (work : Replaying α) : Prop :=
  Patches work fun _ slots records => slots = [] ∧ ∃ record, records = [record]

variable {ctx : ReviveContext} {site : UInt32}

theorem ReadsOne.of_record {next : TagRecord → Replaying α}
    (h : ∀ record, Patches (next record) fun _ slots records => slots = [] ∧ records = []) :
    ReadsOne (record site >>= next) := by
  refine (record_patches site).of_bind fun record slots records hread => ?_
  rcases hread with ⟨rfl, rfl⟩
  apply (h record).mono
  intro _ slots records hnone
  rcases hnone with ⟨rfl, rfl⟩
  exact ⟨rfl, record, rfl⟩

theorem global_reads : ReadsOne (global ctx site) := by
  refine ReadsOne.of_record fun record => ?_
  cases record with
  | global kind offset => exact .of_lift fun _ => ⟨rfl, rfl⟩
  | _ => exact .of_throw _

theorem Patches.of_value {next : SiteValue → Replaying UInt64}
    (h : ∀ v, (∃ address, next v = pure address) ∨ ∃ e, next v = throw e) :
    Patches (value >>= next) fun _ slots records => slots = [] ∧ records = [] := by
  refine value_patches.of_bind fun v slots records hread => ?_
  rcases hread with ⟨rfl, rfl⟩
  rcases h v with ⟨address, hnext⟩ | ⟨e, hnext⟩
  · rw [hnext]
    exact .of_pure ⟨rfl, rfl⟩
  · rw [hnext]
    exact .of_throw e

theorem objectAddress_reads : ReadsOne (objectAddress ctx site) := by
  refine ReadsOne.of_record fun record => ?_
  cases record with
  | loaderObject loader => exact .of_pure ⟨rfl, rfl⟩
  | nonOop | text | knownObject | mirror =>
      refine Patches.of_value fun v => ?_
      cases v with
      | null => exact Or.inl ⟨_, rfl⟩
      | object o => exact Or.inl ⟨_, rfl⟩
      | entity e => exact Or.inr ⟨_, rfl⟩
  | _ => exact .of_throw _

theorem entityAddress_reads : ReadsOne (entityAddress ctx site) := by
  refine ReadsOne.of_record fun record => ?_
  cases record with
  | nonOop | selfMethod | klass | method =>
      refine Patches.of_value fun v => ?_
      cases v with
      | null => exact Or.inl ⟨_, rfl⟩
      | entity e => exact Or.inl ⟨_, rfl⟩
      | object o => exact Or.inr ⟨_, rfl⟩
  | _ => exact .of_throw _

theorem internalAddress_reads (base : UInt64) (codeSize : UInt32) :
    ReadsOne (internalAddress base codeSize site) := by
  refine ReadsOne.of_record fun record => ?_
  cases record with
  | internalWord offset =>
      dsimp only
      split
      · exact .of_pure ⟨rfl, rfl⟩
      · exact .of_throw _
  | _ => exact .of_throw _

theorem pollAddress?_patches :
    Patches (pollAddress? ctx site) fun v slots records => slots = [] ∧
      ∃ record, records = [record] ∧ (v = none ↔ record = .skip) := by
  refine (record_patches site).of_bind fun record slots records hread => ?_
  rcases hread with ⟨rfl, rfl⟩
  cases record with
  | skip => exact .of_pure ⟨rfl, _, rfl, by simp⟩
  | global kind offset =>
      exact (Patches.of_lift fun _ => ⟨rfl, _, rfl, by simp⟩).of_bind_pure
  | _ => exact .of_throw _

def WritesSlots (r : Relocation) (v : Option UInt64) (slots : List UInt32)
    (records : List TagRecord) : Prop :=
  slots ++ (v.map fun _ => r.offset).toList = r.slots records.head? ∧
    records.length = if r.kind.isRecorded then 1 else 0

theorem ReadsOne.writesSlots {r : Relocation} {work : Replaying UInt64} (h : ReadsOne work)
    (hrecorded : r.kind.isRecorded = true) (hslots : ∀ record, r.slots record = [r.offset]) :
    Patches (some <$> work) (WritesSlots r) := by
  apply Patches.of_bind_pure
  apply h.mono
  intro _ slots records hread
  rcases hread with ⟨rfl, record, rfl⟩
  constructor
  · rw [hslots]
    rfl
  · rw [hrecorded]
    rfl

theorem siteValue?_patches (resolved : Resolved) (base : UInt64) (codeSize : UInt32)
    (r : Relocation) :
    Patches (siteValue? ctx resolved base codeSize r) (WritesSlots r) := by
  rcases r with ⟨offset, kind⟩
  unfold siteValue?
  cases kind with
  | none => exact .of_pure ⟨rfl, rfl⟩
  | oop index immediate =>
      cases immediate with
      | false => exact (Patches.of_lift fun _ => ⟨rfl, rfl⟩).of_bind_pure
      | true => exact objectAddress_reads.writesSlots rfl fun _ => rfl
  | metadata index immediate =>
      cases immediate with
      | false => exact (Patches.of_lift fun _ => ⟨rfl, rfl⟩).of_bind_pure
      | true => exact entityAddress_reads.writesSlots rfl fun _ => rfl
  | externalWord | runtimeCall => exact global_reads.writesSlots rfl fun _ => rfl
  | poll | pollReturn =>
      apply pollAddress?_patches.mono
      intro v slots records hread
      rcases hread with ⟨rfl, record, rfl, hskip⟩
      refine ⟨?_, rfl⟩
      cases v with
      | none => simp [Relocation.slots, hskip.mp rfl]
      | some v => simpa [Relocation.slots] using hskip
  | virtualCall cached =>
      refine (write_patches cached nonOopWord).of_bind fun _ slots records hwrote => ?_
      rcases hwrote with ⟨rfl, rfl⟩
      exact (Patches.of_lift fun _ => ⟨rfl, rfl⟩).of_bind_pure
  | optVirtualCall | staticCall =>
      exact (Patches.of_lift fun _ => ⟨rfl, rfl⟩).of_bind_pure
  | staticStub metadata jump =>
      refine (write_patches metadata 0).of_bind fun _ slots records hwrote => ?_
      rcases hwrote with ⟨rfl, rfl⟩
      refine (write_patches jump _).of_bind fun _ slots records hwrote => ?_
      rcases hwrote with ⟨rfl, rfl⟩
      exact .of_pure ⟨rfl, rfl⟩
  | internalWord | sectionWord =>
      exact ReadsOne.writesSlots (internalAddress_reads base codeSize) rfl fun _ => rfl

theorem site_patches (resolved : Resolved) (base : UInt64) (codeSize : UInt32)
    (r : Relocation) :
    Patches (Replay.site ctx resolved base codeSize r) fun _ slots records =>
      slots = r.slots records.head? ∧
        records.length = if r.kind.isRecorded then 1 else 0 := by
  refine (siteValue?_patches resolved base codeSize r).of_bind fun v slots records h => ?_
  rcases h with ⟨hslots, hrecords⟩
  cases v with
  | none =>
      refine .of_pure ⟨?_, ?_⟩
      · simpa using hslots
      · simpa using hrecords
  | some v =>
      apply (write_patches r.offset v).mono
      intro _ slots' records' hwrote
      rcases hwrote with ⟨rfl, rfl⟩
      rw [List.append_nil]
      exact ⟨hslots, hrecords⟩

/-- The sites write the slots that the relocations name. The induction follows the
relocations, and each takes its record off those that are left. -/
theorem sites_patch (resolved : Resolved) (base : UInt64) (codeSize : UInt32)
    (relocs : List Relocation) :
    Patches (relocs.forM (Replay.site ctx resolved base codeSize)) fun _ slots records =>
      slots = Relocation.slotsOf relocs records := by
  induction relocs with
  | nil => exact .of_pure rfl
  | cons r relocs ih =>
      show Patches (Replay.site ctx resolved base codeSize r >>= fun _ =>
        relocs.forM (Replay.site ctx resolved base codeSize)) _
      refine (site_patches resolved base codeSize r).of_bind fun _ slots records h => ?_
      rcases h with ⟨rfl, hrecords⟩
      apply ih.mono
      intro _ slots' rest hslots
      rw [hslots, Relocation.slotsOf_cons]
      by_cases hrecorded : r.kind.isRecorded = true
      · rw [if_pos hrecorded] at hrecords ⊢
        rcases List.length_eq_one_iff.mp hrecords with ⟨record, rfl⟩
        rfl
      · rw [if_neg hrecorded] at hrecords ⊢
        rw [List.length_eq_zero_iff.mp hrecords]
        rfl

theorem of_finish {state state' : Replay} (h : finish state = .ok ((), state')) :
    state' = state ∧ (∃ next, TagRecord.decode state.tags = .ok .finish next) ∧
      ∀ code, finish { state with code := code } = .ok ((), { state with code := code }) := by
  unfold finish at h ⊢
  rw [run_get_bind] at h
  simp only [run_get_bind]
  cases hend : TagRecord.decodeEnd state.tags with
  | error e next =>
      rw [hend] at h
      cases h
  | ok _ next =>
      rw [hend] at h
      dsimp only at h ⊢
      by_cases hleft : state.values.length ≠ 0
      · rw [if_pos hleft] at h
        cases h
      · rw [if_neg hleft] at h ⊢
        cases h
        refine ⟨rfl, ?_, fun _ => rfl⟩
        unfold TagRecord.decodeEnd at hend
        rcases of_bind_run hend with ⟨record, middle, hread, hrest⟩
        cases record with
        | finish => exact ⟨middle, hread⟩
        | _ => cases hrest

theorem exists_writes_of_run {resolved : Resolved} {base : UInt64} {codeSize : UInt32}
    {relocs : List Relocation} {state done : Replay}
    (h : run ctx resolved base codeSize relocs state = .ok ((), done)) :
    ∃ records ws, TagStream.Holds state.tags records ∧ state.code.HasSlots ws ∧
      ws.map (·.slot) = Relocation.slotsOf relocs records ∧
      done.code = state.code.writeAll ws ∧
      ∀ code, code.length = state.code.length →
        run ctx resolved base codeSize relocs { state with code := code } =
          .ok ((), { done with code := code.writeAll ws }) := by
  have hsplit : ∀ s, run ctx resolved base codeSize relocs s =
      relocs.forM (Replay.site ctx resolved base codeSize) s >>= fun x => finish x.2 :=
    fun _ => rfl
  rw [hsplit] at h
  rcases of_bind_eq_ok h with ⟨⟨_, last⟩, hsites, hfinish⟩
  rcases of_finish hfinish with ⟨rfl, ⟨next, hend⟩, hfinished⟩
  rcases sites_patch resolved base codeSize relocs _ _ _ hsites with
    ⟨records, ws, hwrote, hslots⟩
  refine ⟨records, ws, hwrote.passed.holds hend, hwrote.fits, hslots, hwrote.code_eq, ?_⟩
  intro code hcode
  rw [hsplit, hwrote.alike code hcode]
  exact hfinished _

end Replay

namespace Blob

/-!
## Whole blobs
-/

/-- The blobs hold the same in every section that a revive reads, but for the code. Their
sections may overlap, as long as this is so. -/
structure SameButCode (b b' : Blob) : Prop where
  header_eq : b'.header = b.header
  length_eq : b'.bytes.length = b.bytes.length
  relocs_eq : b'.part b.header.relocs = b.part b.header.relocs
  tagReloc_eq : b'.part b.header.tagReloc = b.part b.header.tagReloc
  stackMaps_eq : b'.part b.header.stackMaps = b.part b.header.stackMaps
  deps_eq : b'.part b.header.deps = b.part b.header.deps
  opts_eq : b'.part b.header.opts = b.part b.header.opts

variable {b b' : Blob} {ctx : ReviveContext} {resolved : Resolved} {nm : CompiledMethod}
  {space : Bytes} {offset : UInt32}

theorem LiesAt.code_inside (h : b.LiesAt space offset) :
    b.header.code.start.toNat + b.header.code.length.toNat ≤ b.bytes.length := by
  have hmem : b.header.code ∈ b.header.sections := by simp [BlobHeader.sections]
  exact (h.inside hmem).2

theorem LiesAt.length_code (h : b.LiesAt space offset) :
    b.code.length = b.header.codeSize.toNat :=
  Bytes.length_window h.code_inside

theorem SameButCode.length_code (h : b.SameButCode b') (hlies : b.LiesAt space offset) :
    b'.code.length = b.code.length := by
  rw [hlies.length_code, code, h.header_eq]
  apply Bytes.length_window
  rw [h.length_eq]
  exact hlies.code_inside

/-- A revive writes into slots of the code. The writes are told by everything but the
code, so that they are also those of a blob with other code. -/
theorem exists_writes_of_revive (h : b.revive ctx resolved = .ok nm) :
    ∃ records ws, TagStream.Holds { bytes := b.tagReloc } records ∧
      b.relocations = .ok nm.relocations ∧ b.code.HasSlots ws ∧
      ws.map (·.slot) = Relocation.slotsOf nm.relocations records ∧
      nm.code = b.code.writeAll ws ∧
      ∀ b', b.SameButCode b' → b'.code.length = b.code.length →
        b'.revive ctx resolved = .ok { nm with code := b'.code.writeAll ws } := by
  unfold revive at h
  rcases of_bind_eq_ok h with ⟨relocs, hrelocs, h⟩
  rcases of_bind_eq_ok h with ⟨⟨_, done⟩, hrun, h⟩
  rcases of_bind_eq_ok h with ⟨stackMaps, hstackMaps, h⟩
  rcases of_bind_eq_ok h with ⟨dependencies, hdependencies, h⟩
  rcases of_bind_eq_ok h with ⟨speculations, hspeculations, h⟩
  cases h
  rcases Replay.exists_writes_of_run hrun with
    ⟨records, ws, hholds, hfits, hslots, hcode, hother⟩
  refine ⟨records, ws, hholds, hrelocs, hfits, hslots, hcode, ?_⟩
  intro b' hsame hlength
  have hrelocs' : b'.relocations = .ok relocs := by
    rw [relocations, hsame.header_eq, hsame.relocs_eq]
    exact hrelocs
  have htags : b'.tagReloc = b.tagReloc := by
    rw [tagReloc, hsame.header_eq, hsame.tagReloc_eq]
    rfl
  have hstackMaps' : b'.stackMaps = .ok stackMaps := by
    rw [Blob.stackMaps, hsame.header_eq, hsame.stackMaps_eq]
    exact hstackMaps
  have hdependencies' : b'.dependencies = .ok dependencies := by
    rw [Blob.dependencies, hsame.header_eq, hsame.deps_eq]
    exact hdependencies
  have hspeculations' : b'.speculations = .ok speculations := by
    rw [Blob.speculations, hsame.header_eq, hsame.opts_eq]
    exact hspeculations
  unfold revive
  rw [hrelocs', htags, hsame.header_eq, hstackMaps', hdependencies', hspeculations']
  show (Replay.run ctx resolved _ _ relocs _ >>= fun _ => _) = _
  rw [hother b'.code hlength]
  rfl

/-- A revive keeps the length of the code and writes the slots that the relocations name,
which lie in the code, and no other byte. What the slots hold in the end does not depend
on what was saved there. -/
theorem revive_writes_slots (hparse : parse space offset = .ok b)
    (h : b.revive ctx resolved = .ok nm) :
    ∃ records, TagStream.decode b.tagReloc = .ok records ∧
      b.relocations = .ok nm.relocations ∧
      nm.code.length = b.header.codeSize.toNat ∧ b.code.length = b.header.codeSize.toNat ∧
      (∀ slot ∈ Relocation.slotsOf nm.relocations records,
        slot.toNat + 8 ≤ nm.code.length) ∧
      (∀ i, (∀ slot ∈ Relocation.slotsOf nm.relocations records, ¬ InSlot i slot) →
        nm.code[i]? = b.code[i]?) ∧
      ∀ b', b.SameButCode b' →
        ∃ code, b'.revive ctx resolved = .ok { nm with code := code } ∧
          ∀ i, (∃ slot ∈ Relocation.slotsOf nm.relocations records, InSlot i slot) →
            code[i]? = nm.code[i]? := by
  have hlies := liesAt_of_parse hparse
  rcases exists_writes_of_revive h with
    ⟨records, ws, hholds, hrelocs, hfits, hslots, hcode, hother⟩
  have hlength : nm.code.length = b.code.length := by
    rw [hcode, Bytes.length_writeAll hfits]
  refine ⟨records, hholds.decode, hrelocs, hlength.trans hlies.length_code,
    hlies.length_code, ?_, ?_, ?_⟩
  · intro slot hslot
    rw [← hslots] at hslot
    rcases List.mem_map.mp hslot with ⟨w, hw, rfl⟩
    rw [hlength]
    exact hfits w hw
  · intro i hi
    rw [hcode]
    exact Bytes.getElem?_writeAll_of_not hfits (by rw [hslots]; exact hi)
  · intro b' hsame
    have hlength' := hsame.length_code hlies
    refine ⟨_, hother b' hsame hlength', ?_⟩
    intro i hi
    rw [hcode]
    exact Bytes.getElem?_writeAll_of_mem hfits hlength' (by rw [hslots]; exact hi)

def stubbed (code : Bytes) : Blob :=
  let header : BlobHeader :=
    { size := 216, codeSize := 32, relocStart := 120, relocCount := 3,
      deps := ⟨208, 8⟩, opts := ⟨208, 8⟩, tagMeta := ⟨168, 8⟩, tagOop := ⟨168, 8⟩,
      tagReloc := ⟨176, 24⟩, stackMaps := ⟨200, 8⟩, nextVersion := -1 }
  { header, offset := 0,
    bytes := header.encode ++ code ++
      Relocation.encodeAll [⟨8, .poll false⟩, ⟨0, .internalWord⟩, ⟨0, .staticStub 16 12⟩] ++
      TagStream.encode [] ++ TagStream.encode [.skip, .internalWord 4] ++
      StackMap.encodeAll [] ++ Dependency.encodeAll [] }

theorem revive_writes_slots_of_stub :
    parse (stubbed (Bytes.zeros 32)).bytes 0 = .ok (stubbed (Bytes.zeros 32)) ∧
      ∃ nm code, (stubbed (Bytes.zeros 32)).revive idle {} = .ok nm ∧
        (stubbed (List.replicate 32 1)).revive idle {} = .ok { nm with code := code } ∧
        nm.code[8]? = some 0 ∧ code[17]? = nm.code[17]? := by
  have hparse : parse (stubbed (Bytes.zeros 32)).bytes 0 = .ok (stubbed (Bytes.zeros 32)) :=
    eq_ok_of_valueWith (by decide +kernel)
  have hrevive : valueWith (fun _ => true) ((stubbed (Bytes.zeros 32)).revive idle {}) =
      true := by
    decide +kernel
  have hdecode : TagStream.decode (stubbed (Bytes.zeros 32)).tagReloc =
      .ok [.skip, .internalWord 4] :=
    eq_ok_of_valueWith (by decide +kernel)
  have hrelocs : (stubbed (Bytes.zeros 32)).relocations =
      .ok [⟨8, .poll false⟩, ⟨0, .internalWord⟩, ⟨0, .staticStub 16 12⟩] :=
    eq_ok_of_valueWith (by decide +kernel)
  have hsame : (stubbed (Bytes.zeros 32)).SameButCode (stubbed (List.replicate 32 1)) := by
    constructor <;> decide +kernel
  rcases of_valueWith hrevive with ⟨nm, hnm, _⟩
  rcases revive_writes_slots hparse hnm with
    ⟨records, hrecords, hrelocs', _, _, _, houtside, hother⟩
  rw [hdecode] at hrecords
  rw [hrelocs] at hrelocs'
  cases hrecords
  injection hrelocs' with hrelocs'
  rcases hother _ hsame with ⟨code, hcode, hinside⟩
  have hslots : Relocation.slotsOf nm.relocations [.skip, .internalWord 4] = [0, 16, 12] := by
    rw [← hrelocs']
    rfl
  have houter : ∀ slot ∈ ([0, 16, 12] : List UInt32), ¬ InSlot 8 slot := by
    simp only [List.forall_mem_cons]
    exact ⟨by decide, by decide, by decide, nofun⟩
  have hinner : ∃ slot ∈ ([0, 16, 12] : List UInt32), InSlot 17 slot :=
    ⟨16, by decide, by decide⟩
  rw [hslots] at houtside hinside
  refine ⟨hparse, nm, code, hnm, hcode, ?_, hinside 17 hinner⟩
  rw [houtside 8 houter]
  decide +kernel

end Blob

end CodeCache

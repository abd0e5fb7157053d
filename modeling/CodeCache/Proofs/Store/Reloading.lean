import CodeCache.Proofs.Metadata.Loading
import CodeCache.Proofs.Store.FileStorage

/-!
# What a written file is read back as

Texts that hold a zero are not read back as they were written. Containers are,
whatever the texts are: if the file can be read at all, it has the containers
that were written.
-/

namespace CodeCache

def Shows {α : Type} (place : Nat) (reader : Read α) (bs : Bytes)
    (Q : α → Prop) : Prop :=
  ∀ pre post a c, pre.length % 8 = place % 8 →
    reader ⟨pre ++ bs ++ post, pre.length⟩ = .ok a c → Q a

namespace Shows

variable {α β : Type} {place : Nat}

theorem of_ensures {reader : Read α} {Q : α → Prop}
    (h : Ensures (fun _ => True) reader Q) (bs : Bytes) :
    Shows place reader bs Q :=
  fun _ _ _ _ _ hrun => (h.ok_and_post trivial hrun).2

theorem of_bind {reader : Read α} {g : α → Read β} {bs cs : Bytes} {a : α}
    {Q : β → Prop} (h : Reads place reader bs a)
    (hnext : Shows (place + bs.length) (g a) cs Q) :
    Shows place (reader >>= g) (bs ++ cs) Q := by
  intro pre post b c hpre hrun
  have hfirst := h pre (cs ++ post) hpre
  have hplace : (pre ++ bs).length % 8 = (place + bs.length) % 8 := by
    rw [List.length_append]
    omega
  have hall : pre ++ (bs ++ cs) ++ post = pre ++ bs ++ (cs ++ post) := by
    simp only [List.append_assoc]
  have hall' : pre ++ bs ++ cs ++ post = pre ++ bs ++ (cs ++ post) := by
    simp only [List.append_assoc]
  change EStateM.bind reader g _ = _ at hrun
  unfold EStateM.bind at hrun
  rw [hall, hfirst] at hrun
  refine hnext (pre ++ bs) post b c hplace ?_
  rw [hall', List.length_append]
  exact hrun

theorem of_check {c : Prop} [Decidable c] {e : Error} {f : α → Read β}
    {reader : Read β} {bs : Bytes} {Q : β → Prop} (hc : ¬ c)
    (h : Shows place reader bs Q) :
    Shows place (if c then throw e >>= f else reader) bs Q := by
  rw [if_neg hc]
  exact h

theorem of_run {reader : Read α} {bs : Bytes} {Q : α → Prop}
    (h : Shows 0 reader bs Q) (post : Bytes) {a : α}
    (hrun : reader.run (bs ++ post) = .ok a) :
    Q a := by
  unfold Read.run at hrun
  split at hrun
  · rename_i c heq
    cases hrun
    exact h [] post a c rfl heq
  · cases hrun

end Shows

namespace FileHeader

theorem of_decode_run {h h' : FileHeader} (post : Bytes)
    (hrun : decode.run (h.encode ++ post) = .ok h') :
    h' = { h with buildIdentity := h'.buildIdentity } := by
  unfold encode at hrun
  rw [Bytes.padded_eq, List.append_assoc] at hrun
  refine Shows.of_run (Q := fun h' : FileHeader =>
    h' = { h with buildIdentity := h'.buildIdentity }) ?_ _ hrun
  unfold decode
  simp only [List.append_assoc]
  refine .of_bind (Reads.of_uint32 _) ?_
  refine .of_check (fun hne => hne rfl) ?_
  refine .of_bind (Reads.of_uint32 _) ?_
  refine .of_bind (Reads.of_uint64 _) ?_
  refine .of_bind (Reads.of_uint64 _) ?_
  refine .of_bind (Reads.of_uint64 _) ?_
  refine .of_bind (Reads.of_uint64 _) ?_
  refine .of_bind (Reads.of_uint64 _) ?_
  refine .of_bind (Reads.of_uint32 _) ?_
  refine .of_bind (Reads.of_uint32 _) ?_
  refine .of_ensures (.of_bind (.of_true _) ?_) _
  intro text _
  cases text with
  | error fault => exact .of_throw _
  | ok buildIdentity => exact .of_pure rfl

theorem decode_ensures :
    Ensures (fun _ => True) decode (fun h => NulFree h.buildIdentity) := by
  unfold decode
  refine (Ensures.of_true _).of_bind fun _ _ => .of_check fun _ => ?_
  refine (Ensures.of_true _).of_bind fun _ _ => ?_
  refine (Ensures.of_true _).of_bind fun _ _ => ?_
  refine (Ensures.of_true _).of_bind fun _ _ => ?_
  refine (Ensures.of_true _).of_bind fun _ _ => ?_
  refine (Ensures.of_true _).of_bind fun _ _ => ?_
  refine (Ensures.of_true _).of_bind fun _ _ => ?_
  refine (Ensures.of_true _).of_bind fun _ _ => ?_
  refine (Ensures.of_true _).of_bind fun _ _ => ?_
  refine Read.text?_ensures.of_bind fun text htext => ?_
  cases text with
  | error fault => exact .of_throw _
  | ok buildIdentity => exact .of_pure (htext _ rfl)

theorem fileSize_eq_of_check {h : FileHeader} {size : Nat}
    (hcheck : h.check size = .ok ()) :
    h.fileSize.toNat = size := by
  unfold check at hcheck
  split at hcheck
  · cases hcheck
  · rename_i hsize
    exact Decidable.not_not.mp hsize

end FileHeader

namespace CacheFile

theorem of_decode {bs : Bytes} {expected : Option String} {f : CacheFile}
    (h : decode bs expected = .ok f) :
    ∃ header, FileHeader.decode.run bs = .ok header ∧
      header.check bs.length = .ok () ∧
      f.buildIdentity = header.buildIdentity ∧
      MetaSpace.decode (bs.window header.metaStart.toNat
        header.metaSize.toNat) = .ok f.space ∧
      decodeChain bs f.space
        (header.containerStart.toNat + header.containerSize.toNat) 0
        header.containerCount.toNat header.containerStart.toNat =
          .ok f.containers := by
  unfold decode at h
  split at h
  · cases h
  · rcases of_bind_eq_ok h with ⟨header, hrun, h⟩
    rcases of_bind_eq_ok h with ⟨_, hcheck, h⟩
    rcases of_bind_eq_ok h with ⟨_, _, h⟩
    rcases of_bind_eq_ok h with ⟨space, hspace, h⟩
    rcases of_bind_eq_ok h with ⟨containers, hchain, h⟩
    cases h
    exact ⟨header, hrun, hcheck, rfl, hspace, hchain⟩

theorem clean_of_decode {bs : Bytes} {expected : Option String} {f : CacheFile}
    (h : decode bs expected = .ok f) :
    NulFree f.buildIdentity ∧ f.space.KeyedBy (·.name.NulFree) := by
  rcases of_decode h with ⟨header, hrun, -, hbuild, hspace, -⟩
  refine ⟨?_, MetaSpace.keyedBy_of_decode hspace⟩
  rw [hbuild]
  exact FileHeader.decode_ensures.of_run hrun

theorem of_decodeChain_eq_ok {view : Bytes} {space : MetaSpace}
    {finish before left offset : Nat} {cs : List Container}
    (h : decodeChain view space finish before left offset = .ok cs) :
    ∃ c next, Container.decode view offset = .ok (c, next) ∧
      match next with
      | none => cs = [c]
      | some next => ∃ rest left, cs = c :: rest ∧
          decodeChain view space finish (before + 1) left next.toNat =
            .ok rest := by
  cases left with
  | zero => cases h
  | succ left =>
      unfold decodeChain at h
      by_cases hend : finish ≤ offset
      · rw [if_pos hend] at h
        cases h
      · rw [if_neg hend] at h
        rcases of_bind_eq_ok h with ⟨⟨c, next⟩, hread, h⟩
        rcases of_bind_eq_ok h with ⟨_, _, h⟩
        refine ⟨c, next, hread, ?_⟩
        cases next with
        | none =>
            by_cases hleft : left ≠ 0
            · dsimp only at h
              rw [if_pos hleft] at h
              cases h
            · dsimp only at h
              rw [if_neg hleft] at h
              cases h
              rfl
        | some next =>
            rcases of_bind_eq_ok h with ⟨rest, hrest, h⟩
            cases h
            exact ⟨rest, left, rfl, hrest⟩

/-- A stored chain is read back as it was written, if it is read back. How many
containers are declared, and where they have to end, does not matter. -/
theorem of_decodeChain_encodeChain {space : MetaSpace} {cs cs' : List Container}
    (hcs : ∀ c ∈ cs, c.Storable) (hne : cs ≠ []) (pre post : Bytes)
    (hsize : pre.length + chainSize cs < 2 ^ 64) {finish before left : Nat}
    (h : decodeChain (pre ++ encodeChain pre.length cs ++ post) space finish
      before left pre.length = .ok cs') :
    cs' = cs := by
  induction cs generalizing pre before left cs' with
  | nil => exact absurd rfl hne
  | cons c cs ih =>
      have hc := hcs c List.mem_cons_self
      rcases of_decodeChain_eq_ok h with ⟨c', next, hread, hrest⟩
      cases cs with
      | nil =>
          have hback : Container.decode (pre ++ c.encode 0 ++ post)
              pre.length = .ok (c, none) :=
            Container.decode_encode hc pre post fun h => absurd rfl h
          rw [encodeChain, hback] at hread
          cases hread
          exact hrest
      | cons d rest =>
          have hpos := c.headerSize_le_encodedSize
          unfold Container.headerSize at hpos
          rw [chainSize_cons] at hsize
          rw [encodeChain] at hread hrest
          have hnext : (UInt64.ofNat (pre.length + c.encodedSize)).toNat =
              pre.length + c.encodedSize :=
            UInt64.toNat_ofNat_of_lt' (show _ < 2 ^ 64 by omega)
          generalize UInt64.ofNat (pre.length + c.encodedSize) = link
            at hnext hread hrest
          have hbehind : (pre ++ c.encode link).length =
              pre.length + c.encodedSize := by
            rw [List.length_append, Container.length_encode]
          have hnz : link ≠ 0 := by
            intro hzero
            rw [hzero] at hnext
            change 0 = _ at hnext
            omega
          have hback := Container.decode_encode hc pre
            (encodeChain (pre.length + c.encodedSize) (d :: rest) ++ post)
            (fun _ => hnext ▸
              (by omega : pre.length < pre.length + c.encodedSize))
          rw [if_neg hnz] at hback
          simp only [List.append_assoc] at hread hback
          rw [hback] at hread
          cases hread
          rcases hrest with ⟨more, left', rfl, hmore⟩
          rw [hnext, ← List.append_assoc, ← hbehind] at hmore
          rw [ih (fun e he => hcs e (List.mem_cons_of_mem c he))
            (List.cons_ne_nil d rest) _ (by rw [hbehind]; omega) hmore]

theorem of_decode_encode {f g : CacheFile} {expected : Option String}
    (h : decode f.encode expected = .ok g) :
    f.encodedSize < 2 ^ 64 ∧
      MetaSpace.decode f.space.encode.padded = .ok g.space ∧
      ∃ finish, decodeChain f.encode g.space finish 0
        (UInt32.ofNat f.containers.length).toNat
        (FileHeader.encodedSize f.buildIdentity) = .ok g.containers := by
  rcases of_decode h with ⟨header, hrun, hcheck, -, hspace, hchain⟩
  rw [encode_eq, List.append_assoc] at hrun
  have hheader := FileHeader.of_decode_run _ hrun
  have hsize := FileHeader.fileSize_eq_of_check hcheck
  rw [hheader, length_encode] at hsize
  have hlt : f.encodedSize < 2 ^ 64 := by
    rw [← hsize]
    exact UInt64.toNat_lt _
  have hstart : header.containerStart.toNat =
      FileHeader.encodedSize f.buildIdentity := by
    have hsum : f.encodedSize = FileHeader.encodedSize f.buildIdentity +
        chainSize f.containers + alignUp f.space.encode.length := rfl
    rw [hheader]
    exact UInt64.toNat_ofNat_of_lt' (show _ < 2 ^ 64 by omega)
  refine ⟨hlt, ?_, header.containerStart.toNat + header.containerSize.toNat, ?_⟩
  · rw [hheader] at hspace
    rw [← window_space hlt]
    exact hspace
  · rw [hstart] at hchain ⊢
    rw [hheader] at hchain
    rw [hheader]
    exact hchain

theorem containers_of_decode {f g : CacheFile}
    (hf : ∀ c ∈ f.containers, c.Storable) {expected : Option String}
    (h : decode f.encode expected = .ok g) :
    g.containers = f.containers := by
  rcases of_decode_encode h with ⟨hlt, -, finish, hchain⟩
  have hsum : f.encodedSize = FileHeader.encodedSize f.buildIdentity +
      chainSize f.containers + alignUp f.space.encode.length := rfl
  have hlength : f.header.encode.length =
      FileHeader.encodedSize f.buildIdentity :=
    f.header.length_encode
  rw [encode_eq, ← hlength] at hchain
  cases hcontainers : f.containers with
  | nil =>
      rw [hcontainers] at hchain
      cases hchain
  | cons c cs =>
      rw [hcontainers] at hf hchain hsum
      exact of_decodeChain_encodeChain hf (List.cons_ne_nil c cs) _ _
        (by rw [hlength]; omega) hchain

theorem keys_of_decode {f g : CacheFile}
    (hclean : ∀ key ∈ f.space.keys, key.name.NulFree)
    (hdistinct : f.space.keys.Nodup) (hsize : f.space.size < 2 ^ 32)
    {expected : Option String} (h : decode f.encode expected = .ok g) :
    g.space.keys = f.space.keys := by
  rcases of_decode_encode h with ⟨-, hspace, -⟩
  rw [MetaSpace.decode_padded hclean hdistinct hsize] at hspace
  rw [← Except.ok.inj hspace, MetaSpace.keys_ofKeys]

theorem keys_of_encode_eq {f g : CacheFile} (hsame : g.encode = f.encode)
    (hbuild : g.buildIdentity = f.buildIdentity)
    (hidentity : NulFree f.buildIdentity)
    (hclean : ∀ key ∈ f.space.keys, key.name.NulFree)
    (hclean' : ∀ key ∈ g.space.keys, key.name.NulFree)
    (hdistinct : f.space.keys.Nodup) (hdistinct' : g.space.keys.Nodup)
    (hsmall : f.encodedSize < 2 ^ 32) :
    g.space.keys = f.space.keys := by
  have hsize : g.encodedSize = f.encodedSize := by
    rw [← length_encode, ← length_encode, hsame]
  have hheader : g.header = f.header := by
    have hrun := g.decode_run_encode (hbuild ▸ hidentity)
    rw [hsame, f.decode_run_encode hidentity] at hrun
    exact (Except.ok.inj hrun).symm
  have hspace : g.space.encode.padded = f.space.encode.padded := by
    rw [← window_space (show g.encodedSize < 2 ^ 64 by omega),
      ← window_space (show f.encodedSize < 2 ^ 64 by omega), hsame, hheader]
  have hread := MetaSpace.decode_padded hclean hdistinct
    (Nat.lt_trans (size_lt_of_small hsmall) (by decide))
  rw [← hspace, MetaSpace.decode_padded hclean' hdistinct'
    (Nat.lt_trans (size_lt_of_small (hsize ▸ hsmall)) (by decide))] at hread
  rw [← MetaSpace.keys_ofKeys g.space.keys, Except.ok.inj hread,
    MetaSpace.keys_ofKeys]

theorem containers_ne_nil_of_decode {bs : Bytes} {expected : Option String}
    {f : CacheFile} (h : decode bs expected = .ok f) :
    f.containers ≠ [] := by
  rcases of_decode h with ⟨header, -, -, -, -, hchain⟩
  rcases of_decodeChain_eq_ok hchain with ⟨c, next, _, hrest⟩
  cases next with
  | none =>
      rw [show f.containers = [c] from hrest]
      exact List.cons_ne_nil c []
  | some next =>
      rcases hrest with ⟨rest, _, hcontainers, _⟩
      rw [hcontainers]
      exact List.cons_ne_nil c rest

theorem load_eq_ok_iff {files : FileTree} {path : String} {bs : Bytes}
    (hat : files.at? path = some (.file bs)) {expected : Option String}
    {f : CacheFile} :
    load files path expected = .ok f ↔
      ∃ g, decode bs expected = .ok g ∧ f = { g with path := some path } := by
  have hview : view files path = .ok bs := by
    unfold view
    rw [hat]
  unfold load
  rw [hview]
  change (decode bs expected >>= _) = _ ↔ _
  constructor
  · intro h
    rcases of_bind_eq_ok h with ⟨g, hdecode, hdone⟩
    cases hdone
    exact ⟨g, hdecode, rfl⟩
  · rintro ⟨g, hdecode, rfl⟩
    rw [hdecode]
    rfl

end CacheFile

end CodeCache

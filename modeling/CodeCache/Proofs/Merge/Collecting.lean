import CodeCache.Merge.Basic
import CodeCache.Proofs.Merge.Ranking
import CodeCache.Proofs.Metadata.Interning
import CodeCache.Proofs.Store.Chains
import Mathlib.Data.List.Perm.Subperm

/-!
# What a merge collects

Within a group every key gets a number, and blobs are counted as versions of the
method with a number. Keys and methods are only ever added, so whatever was
collected is there in the end.
-/

namespace CodeCache

/-!
## Folds
-/

theorem foldl_reaches {σ α : Type} {step : σ → α → σ} {P Q : σ → Prop}
    {as : List α} (hinv : ∀ s, ∀ a ∈ as, P s → P (step s a))
    (hkeep : ∀ s, ∀ a ∈ as, P s → Q s → Q (step s a)) {s : σ} (hs : P s)
    {a : α} (ha : a ∈ as) (hreach : ∀ s, P s → Q (step s a)) :
    Q (as.foldl step s) := by
  induction as generalizing s with
  | nil => cases ha
  | cons first rest ih =>
      have hfirst := hinv s first List.mem_cons_self hs
      have hinv' := fun s a ha => hinv s a (List.mem_cons_of_mem first ha)
      have hkeep' := fun s a ha => hkeep s a (List.mem_cons_of_mem first ha)
      rw [List.foldl_cons]
      rcases List.mem_cons.mp ha with rfl | hmem
      · exact (List.foldlRecOn rest step (motive := fun s => P s ∧ Q s)
          ⟨hfirst, hreach s hs⟩ fun s hs b hb =>
            ⟨hinv' s b hb hs.1, hkeep' s b hb hs.1 hs.2⟩).2
      · exact ih hinv' hkeep' hfirst hmem

namespace Merge

variable {inputs : List Input} {base keys : List MetaKey} {key : MetaKey}

/-!
## Numbers for keys
-/

def HasKey (inputs : List Input) (key : MetaKey) : Prop :=
  ∃ input ∈ inputs, key ∈ input.file.space.keys

/-- Keys of the inputs, each with one number, some of which were numbered
before. -/
structure Numbered (inputs : List Input) (base keys : List MetaKey) : Prop where
  more : base <+: keys
  nodup : keys.Nodup
  hasKey : ∀ key ∈ keys, HasKey inputs key

theorem Numbered.length_le (h : Numbered inputs base keys) :
    keys.length ≤ (inputs.map fun i => i.file.space.size).sum := by
  have hsubset : keys ⊆ inputs.flatMap fun i => i.file.space.keys := by
    intro key hkey
    rcases h.hasKey key hkey with ⟨input, hinput, hmem⟩
    exact List.mem_flatMap.mpr ⟨input, hinput, hmem⟩
  have hle := (List.subperm_of_subset h.nodup hsubset).length_le
  rw [List.length_flatMap] at hle
  have hsame : inputs.map (fun i => i.file.space.keys.length) =
      inputs.map fun i => i.file.space.size :=
    List.map_congr_left fun i _ => List.length_map _
  rw [hsame] at hle
  exact hle

theorem number_eq (key : MetaKey) (keys : List MetaKey) :
    ∃ index keys', number key keys = .ok index keys' ∧ KeyAt keys' index key ∧
      (keys' = keys ∨ key ∉ keys ∧ keys' = keys ++ [key]) := by
  unfold number
  rw [run_get_bind]
  cases hfound : keys.idxOf? key with
  | some i =>
      rcases List.idxOf?_eq_some_iff.mp hfound with ⟨hlt, heq, -⟩
      refine ⟨_, keys, rfl, ⟨i, ?_, rfl⟩, Or.inl rfl⟩
      rw [List.getElem?_eq_getElem hlt, heq]
  | none =>
      refine ⟨_, keys ++ [key], rfl, ⟨keys.length, ?_, rfl⟩, Or.inr
        ⟨List.idxOf?_eq_none_iff.mp hfound, rfl⟩⟩
      exact List.getElem?_concat_length

theorem number_ensures (hkey : HasKey inputs key) :
    Ensures (Numbered inputs base) (number key) (fun _ => True) := by
  intro keys hkeys
  rcases number_eq key keys with ⟨index, keys', hrun, -, rfl | ⟨hnew, rfl⟩⟩
  · rw [hrun]
    exact ⟨hkeys, trivial⟩
  · rw [hrun]
    refine ⟨⟨hkeys.more.trans (List.prefix_append _ _), ?_, ?_⟩, trivial⟩
    · rw [List.nodup_append]
      refine ⟨hkeys.nodup, List.nodup_singleton key, ?_⟩
      intro a ha b hb heq
      rw [List.mem_singleton.mp hb] at heq
      exact hnew (heq ▸ ha)
    · intro other hother
      rcases List.mem_append.mp hother with hold | hlast
      · exact hkeys.hasKey other hold
      · rw [List.mem_singleton.mp hlast]
        exact hkey

section

variable {space : MetaSpace} {inv : List MetaKey → Prop}
  (hnumber : ∀ key ∈ space.keys, Ensures inv (number key) (fun _ => True))

include hnumber

theorem slotNumber_ensures (method : UInt32) (r : TagRecord) :
    Ensures inv (slotNumber space method r) (fun _ => True) := by
  have hkey : ∀ index, Ensures inv
      (do number (← ofExcept (space.key index)) : Numbering UInt32)
      (fun _ => True) := by
    intro index
    refine .of_bind (.of_ofExcept (Q := (· ∈ space.keys)) ?_) hnumber
    intro key hkey
    exact List.mem_of_getElem? (MetaSpace.key_eq_ok_iff.mp hkey)
  cases r with
  | selfMethod | nonOop => exact .of_pure trivial
  | klass _ index _ => exact hkey index
  | method _ index => exact hkey index
  | _ => exact .of_throw _

theorem normalize_ensures (method : UInt32) (b : Blob) :
    Ensures inv (normalize space method b) (fun _ => True) := by
  have hexcept : ∀ {α : Type} (result : Except Error α),
      Ensures inv (ofExcept result : Numbering α) (fun _ => True) :=
    fun _ => .of_ofExcept fun _ _ => trivial
  refine .of_bind (hexcept _) fun _ _ => ?_
  refine .of_bind (hexcept _) fun _ _ => ?_
  refine .of_bind (hexcept _) fun _ _ => ?_
  refine .of_bind (hexcept _) fun records _ => ?_
  refine .of_bind (.of_mapM fun r _ => slotNumber_ensures hnumber method r)
    fun slots _ => ?_
  refine .of_bind (hexcept _) fun _ _ => ?_
  exact .of_bind (hexcept _) fun _ _ => .of_pure trivial

end

def Countable (space : MetaSpace) (b : Blob) : Prop :=
  ∀ method keys, ∃ answer keys',
    normalize space method b keys = .ok answer keys'

def Accepted (space : MetaSpace) (b : Blob) : Prop :=
  ∃ method keys answer keys', normalize space method b keys = .ok answer keys'

/-!
## Collecting versions
-/

namespace Collected

variable {visited : MetaKey → BlobPlace → Prop} {s s' s'' : Collected}

/-- Keys and methods occur once. Every method has versions, all of which are
blobs that were visited under its key. -/
structure Proper (inputs : List Input) (visited : MetaKey → BlobPlace → Prop)
    (s : Collected) : Prop where
  numbered : Numbered inputs [] s.keys
  methods_nodup : (s.methods.map (·.method)).Nodup
  versions_ne_nil : ∀ m ∈ s.methods, m.versions ≠ []
  counted : ∀ m ∈ s.methods, MethodVersions.Counted
    (fun place => ∃ key, KeyAt s.keys m.method key ∧ visited key place)
    m.versions

structure Extends (inputs : List Input) (visited : MetaKey → BlobPlace → Prop)
    (s s' : Collected) : Prop where
  proper : s'.Proper inputs visited
  keys : s.keys <+: s'.keys
  methods : s.methods.map (·.method) <+: s'.methods.map (·.method)

def Covers (s : Collected) (key : MetaKey) : Prop :=
  ∃ m ∈ s.methods, KeyAt s.keys m.method key

theorem proper_empty (inputs : List Input)
    (visited : MetaKey → BlobPlace → Prop) :
    Proper inputs visited {} :=
  ⟨⟨List.prefix_refl _, List.nodup_nil, nofun⟩, List.nodup_nil, nofun, nofun⟩

theorem Proper.refl (h : s.Proper inputs visited) :
    s.Extends inputs visited s :=
  ⟨h, List.prefix_refl _, List.prefix_refl _⟩

theorem Extends.trans (h : s.Extends inputs visited s')
    (h' : s'.Extends inputs visited s'') :
    s.Extends inputs visited s'' :=
  ⟨h'.proper, h.keys.trans h'.keys, h.methods.trans h'.methods⟩

theorem Covers.mono (h : s.Covers key) (hs : s.Extends inputs visited s') :
    s'.Covers key := by
  rcases h with ⟨m, hm, hat⟩
  have hmem := hs.methods.subset (List.mem_map_of_mem hm)
  rcases List.mem_map.mp hmem with ⟨m', hm', heq⟩
  refine ⟨m', hm', ?_⟩
  rw [heq]
  exact hat.mono hs.keys

theorem Proper.numbering {α : Type} (h : s.Proper inputs visited)
    {work : Numbering α}
    (hwork : Ensures (Numbered inputs s.keys) work (fun _ => True)) :
    s.Extends inputs visited (s.numbering work).2 := by
  have hkeys := hwork s.keys
    ⟨List.prefix_refl _, h.numbered.nodup, h.numbered.hasKey⟩
  have hmore : ∀ {keys}, Numbered inputs s.keys keys →
      s.Extends inputs visited { s with keys } := by
    intro keys hkeys
    refine ⟨⟨⟨List.nil_prefix, hkeys.nodup, hkeys.hasKey⟩, h.methods_nodup,
      h.versions_ne_nil, ?_⟩, hkeys.more, List.prefix_refl _⟩
    intro m hm
    refine (h.counted m hm).imp ?_
    rintro place ⟨key, hat, hvisited⟩
    exact ⟨key, hat.mono hkeys.more, hvisited⟩
  unfold Collected.numbering
  cases hrun : work s.keys with
  | ok a keys =>
      rw [hrun] at hkeys
      exact hmore hkeys.1
  | error e keys =>
      rw [hrun] at hkeys
      exact hmore hkeys

theorem mem_changeMethod {method : UInt32} {f : MethodVersions → MethodVersions}
    {ms : List MethodVersions} {m : MethodVersions}
    (h : m ∈ changeMethod method f ms) :
    m ∈ ms ∨ (∃ m₀ ∈ ms, m₀.method = method ∧ m = f m₀) ∨
      m = f { method } := by
  induction ms with
  | nil => exact Or.inr (Or.inr (List.mem_singleton.mp h))
  | cons first rest ih =>
      unfold changeMethod at h
      split at h
      · rename_i hfirst
        rcases List.mem_cons.mp h with rfl | hmem
        · exact Or.inr (Or.inl ⟨first, List.mem_cons_self, hfirst, rfl⟩)
        · exact Or.inl (List.mem_cons_of_mem first hmem)
      · rcases List.mem_cons.mp h with rfl | hmem
        · exact Or.inl List.mem_cons_self
        · rcases ih hmem with hold | ⟨m₀, hm₀, hsame, rfl⟩ | hnew
          · exact Or.inl (List.mem_cons_of_mem first hold)
          · exact Or.inr (Or.inl
              ⟨m₀, List.mem_cons_of_mem first hm₀, hsame, rfl⟩)
          · exact Or.inr (Or.inr hnew)

theorem methods_changeMethod {method : UInt32}
    {f : MethodVersions → MethodVersions} (hf : ∀ m, (f m).method = m.method)
    (ms : List MethodVersions) :
    (changeMethod method f ms).map (·.method) =
      if method ∈ ms.map (·.method) then ms.map (·.method)
      else ms.map (·.method) ++ [method] := by
  induction ms with
  | nil =>
      show [(f { method }).method] = _
      rw [hf]
      rfl
  | cons first rest ih =>
      unfold changeMethod
      by_cases hfirst : first.method = method
      · rw [if_pos hfirst, if_pos]
        · rw [List.map_cons, List.map_cons, hf]
        · rw [List.map_cons, hfirst]
          exact List.mem_cons_self
      · rw [if_neg hfirst, List.map_cons, List.map_cons, ih]
        have hiff : method ∈ first.method :: rest.map (·.method) ↔
            method ∈ rest.map (·.method) := by
          rw [List.mem_cons, or_iff_right (Ne.symm hfirst)]
        by_cases hrest : method ∈ rest.map (·.method)
        · rw [if_pos hrest, if_pos (hiff.mpr hrest)]
        · rw [if_neg hrest, if_neg (hrest ∘ hiff.mp), List.cons_append]

theorem Proper.countVersion (h : s.Proper inputs visited) {method : UInt32}
    (hat : KeyAt s.keys method key) {place : BlobPlace}
    (hplace : visited key place) (speculations : List Speculation)
    (dependencies : List Dependency) :
    s.Extends inputs visited { s with
        methods := changeMethod method
          (·.add speculations dependencies place) s.methods } ∧
      method ∈ (changeMethod method (·.add speculations dependencies place)
        s.methods).map (·.method) := by
  have hmethods := @methods_changeMethod method _
    (fun m => m.method_add speculations dependencies place) s.methods
  have hadded : ∀ m ∈ changeMethod method
      (·.add speculations dependencies place) s.methods,
      MethodVersions.Counted
          (fun place => ∃ key, KeyAt s.keys m.method key ∧ visited key place)
          m.versions ∧
        m.versions ≠ [] := by
    intro m hm
    rcases mem_changeMethod hm with hold | ⟨m₀, hm₀, rfl, rfl⟩ | rfl
    · exact ⟨h.counted m hold, h.versions_ne_nil m hold⟩
    · exact (h.counted m₀ hm₀).add _ _ ⟨key, hat, hplace⟩
    · exact (MethodVersions.counted_nil _).add _ _ ⟨key, hat, hplace⟩
  constructor
  · refine ⟨⟨h.numbered, ?_, fun m hm => (hadded m hm).2,
      fun m hm => (hadded m hm).1⟩, List.prefix_refl _, ?_⟩
    · rw [hmethods]
      split
      · exact h.methods_nodup
      · rename_i hnew
        rw [List.nodup_append]
        refine ⟨h.methods_nodup, List.nodup_singleton method, ?_⟩
        intro a ha c hc heq
        rw [List.mem_singleton.mp hc] at heq
        exact hnew (heq ▸ ha)
    · rw [hmethods]
      split
      · exact List.prefix_refl _
      · exact List.prefix_append _ _
  · rw [hmethods]
    split
    · assumption
    · exact List.mem_append_right _ (List.mem_singleton_self method)

section

variable {space : MetaSpace} (hspace : ∀ key ∈ space.keys, HasKey inputs key)

include hspace

theorem Proper.addBlob (h : s.Proper inputs visited) (member : Nat × Nat)
    {method : UInt32} (hat : KeyAt s.keys method key) {b : Blob}
    (hb : Accepted space b →
      visited key ⟨member.1, member.2, b.offset, b.header.size⟩) :
    s.Extends inputs visited (s.addBlob space member method b) ∧
      (Countable space b → (s.addBlob space member method b).Covers key) := by
  have hnumbered := h.numbering
    (normalize_ensures (fun key hkey => number_ensures (hspace key hkey)) method b)
  unfold Collected.addBlob
  cases hresult : s.numbering (normalize space method b) with
  | mk result s' =>
      rw [hresult] at hnumbered
      cases result with
      | error e =>
          refine ⟨hnumbered, fun hcount => ?_⟩
          rcases hcount method s.keys with ⟨answer, keys', hrun⟩
          unfold Collected.numbering at hresult
          rw [hrun] at hresult
          cases hresult
      | ok answer =>
          have hat' := hat.mono hnumbered.keys
          have haccepted : Accepted space b := by
            unfold Collected.numbering at hresult
            split at hresult
            · rename_i keys' hrun
              cases hresult
              exact ⟨method, s.keys, answer, keys', hrun⟩
            · cases hresult
          rcases hnumbered.proper.countVersion hat' (hb haccepted) answer.1
            answer.2 with ⟨hadded, hmem⟩
          refine ⟨hnumbered.trans hadded, fun _ => ?_⟩
          rcases List.mem_map.mp hmem with ⟨m, hm, rfl⟩
          exact ⟨m, hm, hat'⟩

theorem Proper.addChain (h : s.Proper inputs visited) (member : Nat × Nat)
    {method : UInt32} (hat : KeyAt s.keys method key)
    {blobs : List (Except Error Blob)}
    (hblobs : ∀ b, .ok b ∈ blobs → Accepted space b →
      visited key ⟨member.1, member.2, b.offset, b.header.size⟩) :
    s.Extends inputs visited (addChain space member method s blobs) := by
  induction blobs generalizing s with
  | nil => exact h.refl
  | cons blob rest ih =>
      cases blob with
      | error e => exact h.refl
      | ok b =>
          unfold Collected.addChain
          have hfirst := (h.addBlob hspace member hat
            (hblobs b List.mem_cons_self)).1
          exact hfirst.trans (ih hfirst.proper (hat.mono hfirst.keys)
            fun b' hb' => hblobs b' (List.mem_cons_of_mem _ hb'))

theorem Proper.addChain_covers (h : s.Proper inputs visited)
    (member : Nat × Nat) {method : UInt32} (hat : KeyAt s.keys method key)
    {blobs : List Blob}
    (hblobs : ∀ b ∈ blobs, Accepted space b →
      visited key ⟨member.1, member.2, b.offset, b.header.size⟩)
    {b : Blob} (hb : b ∈ blobs) (hcount : Countable space b) :
    (Collected.addChain space member method s (blobs.map .ok)).Covers key := by
  induction blobs generalizing s with
  | nil => cases hb
  | cons first rest ih =>
      rw [List.map_cons]
      unfold Collected.addChain
      have hvisited := hblobs first List.mem_cons_self
      have hothers := fun b hb => hblobs b (List.mem_cons_of_mem first hb)
      rcases h.addBlob hspace member hat hvisited with ⟨hfirst, hcovers⟩
      have hat' := hat.mono hfirst.keys
      rcases List.mem_cons.mp hb with rfl | hmem
      · refine (hcovers hcount).mono
          (hfirst.proper.addChain hspace member hat' ?_)
        intro b' hb'
        rcases List.mem_map.mp hb' with ⟨c, hc, hsame⟩
        cases hsame
        exact hothers b' hc
      · exact ih hfirst.proper hat' hothers hmem

theorem Proper.addMethod (h : s.Proper inputs visited) (member : Nat × Nat)
    (c : Container) {entry : UInt32 × UInt32}
    (hentry : ∀ key, space.key entry.1 = .ok key →
      ∀ b, .ok b ∈ c.code.versions entry.2 → Accepted space b →
        visited key ⟨member.1, member.2, b.offset, b.header.size⟩) :
    s.Extends inputs visited (addMethod space member c s entry) ∧
      ∀ key, space.key entry.1 = .ok key →
        ∀ blobs, c.code.chain entry.2 = .ok blobs →
          ∀ b ∈ blobs, Countable space b →
            (Collected.addMethod space member c s entry).Covers key := by
  unfold Collected.addMethod
  cases hkey : space.key entry.1 with
  | error e => exact ⟨h.refl, nofun⟩
  | ok key =>
      have hmem := hspace key (List.mem_of_getElem? (MetaSpace.key_eq_ok_iff.mp hkey))
      have hnumbered := h.numbering (number_ensures hmem)
      rcases number_eq key s.keys with ⟨index, keys', hrun, hat, -⟩
      have hresult : s.numbering (number key) =
          (.ok index, { s with keys := keys' }) := by
        unfold Collected.numbering
        rw [hrun]
      rw [hresult] at hnumbered
      dsimp only
      rw [hresult]
      have hvisited := hentry key hkey
      refine ⟨hnumbered.trans
        (hnumbered.proper.addChain hspace member hat hvisited), ?_⟩
      intro key' hsame blobs hchain b hb hcount
      cases hsame
      have hversions := CodeSpace.chain_eq_ok_iff.mp hchain
      dsimp only
      rw [hversions] at hvisited ⊢
      exact hnumbered.proper.addChain_covers hspace member hat
        (fun b hb => hvisited b (List.mem_map_of_mem hb)) hb hcount

end

end Collected

def Visited (inputs : List Input) (g : Group) (key : MetaKey)
    (place : BlobPlace) : Prop :=
  ∃ member ∈ g.members, ∃ input, inputs[member.1]? = some input ∧
    ∃ c, input.file.containers[member.2]? = some c ∧
      ∃ entry ∈ c.methods, input.file.space.key entry.1 = .ok key ∧
        ∃ b, .ok b ∈ c.code.versions entry.2 ∧
          place = ⟨member.1, member.2, b.offset, b.header.size⟩

def Tallied (inputs : List Input) (g : Group) (key : MetaKey)
    (place : BlobPlace) : Prop :=
  ∃ member ∈ g.members, ∃ input, inputs[member.1]? = some input ∧
    ∃ c, input.file.containers[member.2]? = some c ∧
      ∃ entry ∈ c.methods, input.file.space.key entry.1 = .ok key ∧
        ∃ b, .ok b ∈ c.code.versions entry.2 ∧ Accepted input.file.space b ∧
          place = ⟨member.1, member.2, b.offset, b.header.size⟩

def Offered (inputs : List Input) (g : Group) (key : MetaKey) : Prop :=
  ∃ member ∈ g.members, ∃ input, inputs[member.1]? = some input ∧
    ∃ c, input.file.containers[member.2]? = some c ∧
      ∃ entry ∈ c.methods, input.file.space.key entry.1 = .ok key ∧
        ∃ blobs, c.code.chain entry.2 = .ok blobs ∧
          ∃ b ∈ blobs, Countable input.file.space b

variable {g : Group}

theorem hasKey_of_getElem? {i : Nat} {input : Input}
    (h : inputs[i]? = some input) :
    ∀ key ∈ input.file.space.keys, HasKey inputs key :=
  fun _ hkey => ⟨input, List.mem_of_getElem? h, hkey⟩

theorem Tallied.visited {place : BlobPlace} (h : Tallied inputs g key place) :
    Visited inputs g key place := by
  rcases h with ⟨member, hmember, input, hinput, c, hc, entry, hentry, hkey, b, hb,
    -, rfl⟩
  exact ⟨member, hmember, input, hinput, c, hc, entry, hentry, hkey, b, hb, rfl⟩

namespace Collected

variable {s : Collected} {member : Nat × Nat}

theorem Proper.addMember (h : s.Proper inputs (Tallied inputs g))
    (hmember : member ∈ g.members) :
    s.Extends inputs (Tallied inputs g) (addMember inputs s member) := by
  unfold Collected.addMember
  cases hinput : inputs[member.1]? with
  | none => exact h.refl
  | some input =>
      dsimp only
      cases hc : input.file.containers[member.2]? with
      | none => exact h.refl
      | some c =>
          dsimp only
          refine List.foldlRecOn c.methods _ h.refl ?_
          intro s' hs' entry hentry
          refine hs'.trans (hs'.proper.addMethod (hasKey_of_getElem? hinput)
            member c ?_).1
          intro key hkey b hb haccepted
          exact ⟨member, hmember, input, hinput, c, hc, entry, hentry, hkey, b, hb,
            haccepted, rfl⟩

theorem Proper.imp {visited visited' : MetaKey → BlobPlace → Prop}
    (h : s.Proper inputs visited)
    (himp : ∀ key place, visited key place → visited' key place) :
    s.Proper inputs visited' := by
  refine ⟨h.numbered, h.methods_nodup, h.versions_ne_nil, fun m hm => ?_⟩
  apply (h.counted m hm).imp
  rintro place ⟨key, hat, hplace⟩
  exact ⟨key, hat, himp key place hplace⟩

end Collected

theorem collect_tallied (inputs : List Input) (g : Group) :
    (collect inputs g).Proper inputs (Tallied inputs g) :=
  List.foldlRecOn g.members _ (Collected.proper_empty _ _)
    fun _ hs _ hmember => (hs.addMember hmember).proper

theorem collect_proper (inputs : List Input) (g : Group) :
    (collect inputs g).Proper inputs (Visited inputs g) :=
  (collect_tallied inputs g).imp fun _ _ => Tallied.visited

theorem covers_of_offered (h : Offered inputs g key) :
    (collect inputs g).Covers key := by
  rcases h with ⟨member, hmember, input, hinput, c, hc, entry, hentry, hkey,
    blobs, hchain, b, hb, hcount⟩
  refine foldl_reaches (P := Collected.Proper inputs (Tallied inputs g))
    (Q := fun s => s.Covers key) (fun s m hm hs => (hs.addMember hm).proper)
    (fun s m hm hs hcovers => hcovers.mono (hs.addMember hm))
    (Collected.proper_empty _ _) hmember ?_
  intro s hs
  have hstep : ∀ s, ∀ entry ∈ c.methods,
      Collected.Proper inputs (Tallied inputs g) s →
      s.Extends inputs (Tallied inputs g) (Collected.addMethod input.file.space
        member c s entry) ∧
      ∀ key, input.file.space.key entry.1 = .ok key →
        ∀ blobs, c.code.chain entry.2 = .ok blobs →
          ∀ b ∈ blobs, Countable input.file.space b →
            (Collected.addMethod input.file.space member c s entry).Covers
              key := by
    intro s entry hentry hs
    refine hs.addMethod (hasKey_of_getElem? hinput) member c ?_
    intro key hkey b hb haccepted
    exact ⟨member, hmember, input, hinput, c, hc, entry, hentry, hkey, b, hb,
      haccepted, rfl⟩
  unfold Collected.addMember
  rw [hinput]
  dsimp only
  rw [hc]
  exact foldl_reaches (P := Collected.Proper inputs (Tallied inputs g))
    (Q := fun s => s.Covers key) (fun s e he hs => (hstep s e he hs).1.proper)
    (fun s e he hs hcovers => hcovers.mono (hstep s e he hs).1) hs hentry
    fun s hs => (hstep s entry hentry hs).2 key hkey blobs hchain b hb hcount

end Merge

end CodeCache

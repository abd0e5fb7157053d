import CodeCache.Proofs.Options.Language
import CodeCache.Proofs.Work

/-!
# Reading options

Each reader of a value takes the texts of the language and no others. A token is read as
what it sets, and what is read was a token, so by induction along the tokens a text is
read exactly if it consists of tokens that stand where they may. A further level is
tried first, but no name of a category is the key of a setting.
-/

namespace CodeCache.Options

variable {o o' : Options}

/-!
## Keys and values
-/

theorem cut?_setting {key : String} (h : '=' ∉ key.toList) (value : String) :
    Split.cut? '=' (setting key value) = some (key, value) :=
  Split.cut?_append h value

theorem eq_setting_of_cut? {s key value : String} (h : Split.cut? '=' s = some (key, value)) :
    s = setting key value :=
  Split.eq_of_cut? h

theorem readSwitch?_name (s : Switch) : o.readSwitch? s.name = some (s.throw o) := by
  cases s <;> rfl

theorem eq_of_readSwitch? {name : String} (h : o.readSwitch? name = some o') :
    ∃ s : Switch, s.name = name ∧ o' = s.throw o := by
  unfold readSwitch? at h
  split at h
  · cases h
    exact ⟨.save, rfl, rfl⟩
  · cases h
    exact ⟨.restore, rfl, rfl⟩
  · cases h
    exact ⟨.merge, rfl, rfl⟩
  · cases h
    exact ⟨.printAssumptions, rfl, rfl⟩
  · cases h
    exact ⟨.fatalOnFail, rfl, rfl⟩
  · cases h
    exact ⟨.measure, rfl, rfl⟩
  · cases h
    exact ⟨.anyBuild, rfl, rfl⟩
  · cases h
    exact ⟨.disableConstantOpt, rfl, rfl⟩
  · cases h
    exact ⟨.checkIdentity, rfl, rfl⟩
  · cases h
    exact ⟨.failInstall, rfl, rfl⟩
  · cases h

/-!
## Values
-/

theorem readPath_eq_ok_iff {key value : String} {path : Option String} :
    readPath key value = .ok path ↔ value ≠ "" ∧ path = some value := by
  unfold readPath
  split
  · rename_i hempty
    rw [String.isEmpty_iff] at hempty
    exact ⟨(fun h => nomatch h), fun h => absurd hempty h.1⟩
  · rename_i hfull
    rw [String.isEmpty_iff] at hfull
    rw [Except.ok.injEq]
    exact ⟨fun h => ⟨hfull, h.symm⟩, fun h => h.2.symm⟩

theorem readMergePolicy_eq_ok_iff {value : String} {p : MergePolicy} :
    readMergePolicy value = .ok p ↔ value = p.name := by
  constructor
  · intro h
    unfold readMergePolicy at h
    split at h
    · cases h
      rfl
    · cases h
      rfl
    · cases h
  · rintro rfl
    cases p <;> rfl

theorem ofOption?_eq_some_iff {name : String} {kinds : List LogKind} :
    LogKind.ofOption? name = some kinds ↔
      ∃ group : LogGroup, name = group.name ∧ kinds = group.kinds := by
  constructor
  · intro h
    unfold LogKind.ofOption? at h
    split at h
    · cases h
      exact ⟨.all, ‹_›, rfl⟩
    · obtain ⟨kind, hfind, rfl⟩ := Option.map_eq_some_iff.mp h
      have hname : (kind.name == name) = true := by
        simpa using List.find?_some hfind
      exact ⟨.one kind, (beq_iff_eq.mp hname).symm, rfl⟩
  · rintro ⟨group, rfl, rfl⟩
    cases group with
    | all => rfl
    | one kind => cases kind <;> rfl

theorem ofName?_eq_some_iff {name : String} {level : LogLevel} :
    LogLevel.ofName? name = some level ↔ name = level.name := by
  constructor
  · intro h
    have hname : (level.name == name) = true := by
      simpa using List.find?_some h
    exact (beq_iff_eq.mp hname).symm
  · rintro rfl
    cases level <;> rfl

theorem readRevivePolicy_eq_ok_iff {value : String} {p : RevivePolicy} :
    readRevivePolicy value = .ok p ↔ ∃ choice : Choice,
      value = choice.text ∧ (Token.revive choice).Valid ∧ p = choice.policy := by
  constructor
  · intro h
    unfold readRevivePolicy at h
    split at h
    · split at h
      · cases h
        exact ⟨.first, rfl, trivial, rfl⟩
      · cases h
        exact ⟨.random, rfl, trivial, rfl⟩
      · cases h
        exact ⟨.appoint, rfl, trivial, rfl⟩
      · cases h
    · rename_i hcut
      cases h
      exact ⟨.appointed (.plain 0), eq_setting_of_cut? hcut, Or.inl rfl, rfl⟩
    · rename_i version _ hcut
      obtain ⟨n, hread, rfl⟩ := map_eq_ok_iff.mp h
      obtain ⟨m, rfl, rfl, hrange⟩ := (readNumber_eq_ok_iff (by decide) (by decide)).mp hread
      exact ⟨.appointed m, eq_setting_of_cut? hcut, Or.inr hrange, rfl⟩
    · cases h
  · rintro ⟨choice, rfl, hvalid, rfl⟩
    cases choice with
    | first => rfl
    | random => rfl
    | appoint => rfl
    | appointed version =>
        have hcut : Split.cut? '=' (Choice.appointed version).text =
            some ("appoint", version.text) :=
          cut?_setting (by decide) version.text
        unfold readRevivePolicy
        rw [hcut]
        rcases hvalid with rfl | hrange
        · rfl
        · have hread : readNumber "revive_policy" version.text 1 (versionLimit - 1) =
              .ok version.value :=
            (readNumber_eq_ok_iff (by decide) (by decide)).mpr ⟨version, rfl, rfl, hrange⟩
          split
          · rename_i hnone
            cases hnone
          · rename_i hzero
            have htext : version.text = "0" := congrArg Prod.snd (Option.some.inj hzero)
            have hhead := head?_text_ne hrange.1
            rw [htext] at hhead
            exact absurd rfl hhead
          · rename_i happoint
            cases happoint
            exact map_eq_ok_iff.mpr ⟨version.value, hread, rfl⟩
          · rename_i _ hother hsome
            exact absurd (Option.some.inj hsome).symm (hother version.text)

theorem eq_append_of_getLast? {s : String} {c : Char} (h : s.toList.getLast? = some c) :
    s = String.ofList s.toList.dropLast ++ String.singleton c := by
  rw [← String.toList_inj]
  simpa using (List.dropLast_append_getLast? c h).symm

theorem readSize_eq_ok_iff {value : String} {n : Nat} :
    readSize value = .ok n ↔ ∃ (m : Numeral) (unit : SizeUnit),
      value = m.text ++ String.singleton unit.letter ∧
        (1 ≤ m.value ∧ m.value ≤ maxNumber) ∧ n = m.value * unit.bytes := by
  constructor
  · intro h
    have hsize : ∃ unit : SizeUnit, value.toList.getLast? = some unit.letter ∧
        (· * unit.bytes) <$> readNumber "max_file_size"
          (String.ofList value.toList.dropLast) 1 maxNumber = .ok n := by
      unfold readSize at h
      split at h
      · exact ⟨.upperM, ‹_›, h⟩
      · exact ⟨.lowerM, ‹_›, h⟩
      · exact ⟨.upperG, ‹_›, h⟩
      · exact ⟨.lowerG, ‹_›, h⟩
      · cases h
    obtain ⟨unit, hlast, hscaled⟩ := hsize
    obtain ⟨v, hread, rfl⟩ := map_eq_ok_iff.mp hscaled
    obtain ⟨m, htext, rfl, hrange⟩ := (readNumber_eq_ok_iff (by decide) (by decide)).mp hread
    refine ⟨m, unit, ?_, hrange, rfl⟩
    rw [htext]
    exact eq_append_of_getLast? hlast
  · rintro ⟨m, unit, rfl, hrange, rfl⟩
    have hlast : (m.text ++ String.singleton unit.letter).toList.getLast? =
        some unit.letter := by
      simp
    have hdigits : String.ofList
        (m.text ++ String.singleton unit.letter).toList.dropLast = m.text := by
      simp
    have hread : readNumber "max_file_size" m.text 1 maxNumber = .ok m.value :=
      (readNumber_eq_ok_iff (by decide) (by decide)).mpr ⟨m, rfl, rfl, hrange⟩
    unfold readSize
    rw [hlast, hdigits]
    simp only [hread]
    cases unit <;> rfl

theorem exists_group_of_cut? {s name value : String} {kinds : List LogKind} {level : LogLevel}
    (hcut : Split.cut? '=' s = some (name, value))
    (hkinds : LogKind.ofOption? name = some kinds)
    (hlevel : LogLevel.ofName? value = some level) :
    ∃ group : LogGroup, s = setting group.name level.name ∧ kinds = group.kinds := by
  obtain ⟨group, rfl, rfl⟩ := ofOption?_eq_some_iff.mp hkinds
  obtain rfl := ofName?_eq_some_iff.mp hlevel
  exact ⟨group, eq_setting_of_cut? hcut, rfl⟩

theorem LogGroup.not_mem_name (group : LogGroup) {c : Char} (hc : c ∈ ['=', ',', '+']) :
    c ∉ group.name.toList := by
  rw [List.mem_cons, List.mem_pair] at hc
  cases group with
  | all => rcases hc with rfl | rfl | rfl <;> decide
  | one kind => rcases hc with rfl | rfl | rfl <;> cases kind <;> decide

theorem cut?_level (group : LogGroup) (level : LogLevel) :
    Split.cut? '=' (setting group.name level.name) = some (group.name, level.name) :=
  cut?_setting (group.not_mem_name (by decide)) level.name

theorem readLog_eq_ok_iff {value : String} :
    o.readLog value = .ok o' ↔ ∃ (group : LogGroup) (level : LogLevel),
      value = setting group.name level.name ∧ o' = o.setLevels group.kinds level := by
  constructor
  · intro h
    unfold readLog at h
    split at h
    · cases h
    · rename_i hcut
      split at h
      · cases h
      · rename_i kinds hkinds
        split at h
        · cases h
        · rename_i level hlevel
          cases h
          obtain ⟨group, hs, rfl⟩ := exists_group_of_cut? hcut hkinds hlevel
          exact ⟨group, level, hs, rfl⟩
  · rintro ⟨group, level, rfl, rfl⟩
    unfold readLog
    rw [cut?_level]
    simp only [ofOption?_eq_some_iff.mpr ⟨group, rfl, rfl⟩, ofName?_eq_some_iff.mpr rfl]

/-!
## One token
-/

def Sets (o : Options) (key value : String) (o' : Options) : Prop :=
  ∃ t : Token, t.Valid ∧ t.isMore = false ∧ t.text = setting key value ∧
    o' = o.after t ∧ (key == "log") = t.isLog

theorem Sets.of_path (key : PathKey) {value : String} {set : Option String → Options}
    (hset : ∀ path, set (some path) = key.set o path)
    (h : (readPath key.name value >>= fun path => pure (set path)) = .ok o')
    (hcomma : ',' ∉ value.toList) :
    Sets o key.name value o' := by
  obtain ⟨path, hread, rfl⟩ := bind_pure_eq_ok_iff.mp h
  obtain ⟨hne, rfl⟩ := readPath_eq_ok_iff.mp hread
  exact ⟨.path key value, ⟨hne, hcomma⟩, rfl, rfl, hset value, by cases key <;> rfl⟩

theorem Sets.of_number (key : NumberKey) {value : String} {set : Nat → Options}
    (hset : ∀ n, set n = key.set o n)
    (h : (readNumber key.name value 1 key.high >>= fun n => pure (set n)) = .ok o') :
    Sets o key.name value o' := by
  obtain ⟨n, hread, rfl⟩ := bind_pure_eq_ok_iff.mp h
  have hhigh : key.high < UInt32.size := by cases key <;> decide
  obtain ⟨m, rfl, rfl, hrange⟩ := (readNumber_eq_ok_iff (by decide) hhigh).mp hread
  exact ⟨.number key m, hrange, rfl, rfl, hset m.value, by cases key <;> rfl⟩

theorem sets_of_readSetting? {key value : String}
    (h : o.readSetting? key value = some (.ok o')) (hcomma : ',' ∉ value.toList) :
    Sets o key value o' := by
  unfold readSetting? at h
  split at h
  · exact .of_path .file (fun _ => rfl) (Option.some.inj h) hcomma
  · exact .of_path .logFile (fun _ => rfl) (Option.some.inj h) hcomma
  · exact .of_path .inputFiles (fun _ => rfl) (Option.some.inj h) hcomma
  · exact .of_path .inputListFile (fun _ => rfl) (Option.some.inj h) hcomma
  · obtain ⟨group, level, rfl, rfl⟩ := readLog_eq_ok_iff.mp (Option.some.inj h)
    exact ⟨.log group level, trivial, rfl, rfl, rfl, rfl⟩
  · obtain ⟨p, hread, rfl⟩ := bind_pure_eq_ok_iff.mp (Option.some.inj h)
    obtain ⟨choice, rfl, hvalid, rfl⟩ := readRevivePolicy_eq_ok_iff.mp hread
    exact ⟨.revive choice, hvalid, rfl, rfl, rfl, rfl⟩
  · obtain ⟨p, hread, rfl⟩ := bind_pure_eq_ok_iff.mp (Option.some.inj h)
    cases readMergePolicy_eq_ok_iff.mp hread
    exact ⟨.policy p, trivial, rfl, rfl, rfl, rfl⟩
  · exact .of_number .percent (fun _ => rfl) (Option.some.inj h)
  · exact .of_number .coverage (fun _ => rfl) (Option.some.inj h)
  · exact .of_number .maxContainers (fun _ => rfl) (Option.some.inj h)
  · exact .of_number .maxVersions (fun _ => rfl) (Option.some.inj h)
  · obtain ⟨n, hread, rfl⟩ := bind_pure_eq_ok_iff.mp (Option.some.inj h)
    obtain ⟨m, unit, rfl, hrange, rfl⟩ := readSize_eq_ok_iff.mp hread
    exact ⟨.size m unit, hrange, rfl, rfl, rfl, rfl⟩
  · cases h

def Token.key? : Token → Option String
  | .path key _ => some key.name
  | .log .. => some "log"
  | .revive _ => some "revive_policy"
  | .policy _ => some "policy"
  | .number key _ => some key.name
  | .size .. => some "max_file_size"
  | _ => none

theorem LogGroup.name_mem (group : LogGroup) :
    group.name ∈ "all" :: LogKind.all.map LogKind.name := by
  cases group with
  | all => exact List.mem_cons_self
  | one kind => cases kind <;> decide

theorem of_key? {t : Token} {key : String} (h : t.key? = some key) :
    '=' ∉ key.toList ∧ (key == "log") = t.isLog ∧
      key ∉ "all" :: LogKind.all.map LogKind.name := by
  cases t with
  | switch s => cases h
  | more group level => cases h
  | path k p =>
      cases h
      cases k <;> exact ⟨by decide, rfl, by decide⟩
  | number k n =>
      cases h
      cases k <;> exact ⟨by decide, rfl, by decide⟩
  | _ =>
      cases h
      exact ⟨by decide, rfl, by decide⟩

theorem readSetting?_value (o : Options) {t : Token} {key : String} (hvalid : t.Valid)
    (h : t.key? = some key) :
    ∃ value, t.text = setting key value ∧
      o.readSetting? key value = some (.ok (o.after t)) := by
  cases t with
  | switch s => cases h
  | more group level => cases h
  | path k p =>
      cases h
      refine ⟨p, rfl, ?_⟩
      cases k <;>
        exact congrArg some (bind_pure_eq_ok_iff.mpr
          ⟨some p, readPath_eq_ok_iff.mpr ⟨hvalid.1, rfl⟩, rfl⟩)
  | log group level =>
      cases h
      exact ⟨_, rfl, congrArg some (readLog_eq_ok_iff.mpr ⟨group, level, rfl, rfl⟩)⟩
  | revive choice =>
      cases h
      refine ⟨_, rfl, congrArg some (bind_pure_eq_ok_iff.mpr ⟨choice.policy, ?_, rfl⟩)⟩
      exact readRevivePolicy_eq_ok_iff.mpr ⟨choice, rfl, hvalid, rfl⟩
  | policy p =>
      cases h
      exact ⟨_, rfl, congrArg some (bind_pure_eq_ok_iff.mpr
        ⟨p, readMergePolicy_eq_ok_iff.mpr rfl, rfl⟩)⟩
  | number k n =>
      cases h
      refine ⟨_, rfl, ?_⟩
      cases k <;>
        exact congrArg some (bind_pure_eq_ok_iff.mpr ⟨n.value,
          (readNumber_eq_ok_iff (by decide) (by decide)).mpr ⟨n, rfl, rfl, hvalid⟩, rfl⟩)
  | size n unit =>
      cases h
      refine ⟨_, rfl, congrArg some (bind_pure_eq_ok_iff.mpr ⟨n.value * unit.bytes, ?_, rfl⟩)⟩
      exact readSize_eq_ok_iff.mpr ⟨n, unit, rfl, hvalid, rfl⟩

theorem readToken_text {t : Token} (hvalid : t.Valid) (hmore : t.isMore = false) :
    o.readToken t.text = .ok (o.after t, t.isLog) := by
  unfold readToken
  cases hkey : t.key? with
  | some key =>
      obtain ⟨hfree, hlog, -⟩ := of_key? hkey
      obtain ⟨value, htext, hread⟩ := readSetting?_value o hvalid hkey
      rw [htext, cut?_setting hfree]
      simp only [hread, hlog]
      rfl
  | none =>
      cases t with
      | switch s =>
          have hcut : Split.cut? '=' s.name = none := by cases s <;> rfl
          rw [Token.text, hcut]
          simp only [readSwitch?_name]
          rfl
      | more group level => cases hmore
      | _ => cases hkey

theorem exists_token_of_readToken {s : String} {inLog : Bool}
    (h : o.readToken s = .ok (o', inLog)) (hcomma : ',' ∉ s.toList) :
    ∃ t : Token, t.Valid ∧ t.isMore = false ∧ t.text = s ∧ o' = o.after t ∧
      inLog = t.isLog := by
  unfold readToken at h
  split at h
  · split at h
    · rename_i o'' hswitch
      cases h
      obtain ⟨switch, hname, rfl⟩ := eq_of_readSwitch? hswitch
      exact ⟨.switch switch, trivial, rfl, hname, rfl, rfl⟩
    · cases h
  · rename_i key value hcut
    have hs := eq_setting_of_cut? hcut
    split at h
    · rename_i result hsetting
      obtain ⟨o'', rfl, heq⟩ := map_eq_ok_iff.mp h
      cases heq
      have hvalue : ',' ∉ value.toList := by
        intro hmem
        rw [hs] at hcomma
        exact hcomma (by simp [setting, hmem])
      obtain ⟨t, hvalid, hmore, htext, ho, hlog⟩ :=
        sets_of_readSetting? hsetting hvalue
      exact ⟨t, hvalid, hmore, htext.trans hs.symm, ho, hlog⟩
    · cases h

/-!
## Further levels
-/

theorem continueLog?_eq_some_iff {s : String} :
    o.continueLog? s = some o' ↔ ∃ (group : LogGroup) (level : LogLevel),
      s = setting group.name level.name ∧ o' = o.setLevels group.kinds level := by
  unfold continueLog?
  constructor
  · intro h
    obtain ⟨⟨kind, value⟩, hcut, h⟩ := Option.bind_eq_some_iff.mp h
    obtain ⟨kinds, hkinds, h⟩ := Option.bind_eq_some_iff.mp h
    obtain ⟨level, hlevel, h⟩ := Option.bind_eq_some_iff.mp h
    cases h
    obtain ⟨group, hs, rfl⟩ := exists_group_of_cut? hcut hkinds hlevel
    exact ⟨group, level, hs, rfl⟩
  · rintro ⟨group, level, rfl, rfl⟩
    refine Option.bind_eq_some_iff.mpr ⟨_, cut?_level group level, ?_⟩
    refine Option.bind_eq_some_iff.mpr ⟨group.kinds, ?_, ?_⟩
    · exact ofOption?_eq_some_iff.mpr ⟨group, rfl, rfl⟩
    · exact Option.bind_eq_some_iff.mpr ⟨level, ofName?_eq_some_iff.mpr rfl, rfl⟩

theorem continueLog?_text (o : Options) {t : Token} (hvalid : t.Valid)
    (hmore : t.isMore = false) :
    o.continueLog? t.text = none := by
  cases hcontinue : o.continueLog? t.text with
  | none => rfl
  | some o' =>
      obtain ⟨group, level, htext, -⟩ := continueLog?_eq_some_iff.mp hcontinue
      have hcut := cut?_level group level
      rw [← htext] at hcut
      cases hkey : t.key? with
      | some key =>
          obtain ⟨hfree, -, hname⟩ := of_key? hkey
          obtain ⟨value, hvalue, -⟩ := readSetting?_value o hvalid hkey
          rw [hvalue, cut?_setting hfree] at hcut
          have hgroup : key = group.name := congrArg Prod.fst (Option.some.inj hcut)
          exact absurd (hgroup ▸ group.name_mem) hname
      | none =>
          cases t with
          | switch s => cases s <;> cases hcut
          | more group level => cases hmore
          | _ => cases hkey

/-!
## All tokens
-/

theorem mem_setting_iff {key value : String} {c : Char} :
    c ∈ (setting key value).toList ↔ c ∈ key.toList ∨ c = '=' ∨ c ∈ value.toList := by
  simp [setting]

theorem comma_not_mem_setting {key value : String} (hkey : ',' ∉ key.toList)
    (hvalue : ',' ∉ value.toList) :
    ',' ∉ (setting key value).toList := by
  rw [mem_setting_iff, not_or, not_or]
  exact ⟨hkey, by decide, hvalue⟩

theorem Numeral.comma_not_mem (m : Numeral) : ',' ∉ m.text.toList := by
  intro hmem
  rcases m.isDigit_or_eq hmem with hdigit | hplus
  · exact absurd hdigit (by decide)
  · exact absurd hplus (by decide)

/-- No token but a path can hold a comma, and a valid path does not. -/
theorem Token.comma_not_mem {t : Token} (hvalid : t.Valid) : ',' ∉ t.text.toList := by
  have hlevel : ∀ (group : LogGroup) (level : LogLevel),
      ',' ∉ (setting group.name level.name).toList := by
    intro group level
    refine comma_not_mem_setting (group.not_mem_name (by decide)) ?_
    cases level <;> decide
  cases t with
  | switch s => cases s <;> decide
  | path key p => exact comma_not_mem_setting (by cases key <;> decide) hvalid.2
  | log group level => exact comma_not_mem_setting (by decide) (hlevel group level)
  | more group level => exact hlevel group level
  | revive choice =>
      refine comma_not_mem_setting (by decide) ?_
      cases choice with
      | appointed version => exact comma_not_mem_setting (by decide) version.comma_not_mem
      | _ => decide
  | policy p => exact comma_not_mem_setting (by decide) (by cases p <;> decide)
  | number key n => exact comma_not_mem_setting (by cases key <;> decide) n.comma_not_mem
  | size n unit =>
      refine comma_not_mem_setting (by decide) ?_
      rw [String.toList_append, List.mem_append, not_or]
      exact ⟨n.comma_not_mem, by cases unit <;> decide⟩

theorem Token.text_ne_empty (t : Token) : t.text ≠ "" := by
  have hsetting : ∀ key value : String, setting key value ≠ "" := by
    intro key value h
    have hmem : '=' ∈ (setting key value).toList := mem_setting_iff.mpr (Or.inr (Or.inl rfl))
    rw [h] at hmem
    cases hmem
  cases t with
  | switch s => cases s <;> decide
  | _ => exact hsetting _ _

theorem readTokens_cons {t : Token} (hvalid : t.Valid) {inLog : Bool}
    (hplace : t.isMore = true → inLog = true) (text : String) (o : Options)
    (parts : List String) :
    readTokens text o inLog (t.text :: parts) =
      readTokens text (o.after t) t.isLog parts := by
  have hfull : ¬ t.text.isEmpty = true := by
    rw [String.isEmpty_iff]
    exact t.text_ne_empty
  rw [readTokens, if_neg hfull]
  cases hmore : t.isMore with
  | true =>
      cases t with
      | more group level =>
          have hcontinue : o.continueLog? (Token.more group level).text =
              some (o.setLevels group.kinds level) :=
            continueLog?_eq_some_iff.mpr ⟨group, level, rfl, rfl⟩
          rw [if_pos (hplace hmore), hcontinue]
          rfl
      | _ => cases hmore
  | false =>
      have hnone : (if inLog = true then o.continueLog? t.text else none) = none := by
        rw [continueLog?_text o hvalid hmore, ite_self]
      rw [hnone]
      simp only [readToken_text hvalid hmore]
      rfl

theorem readTokens_text (text : String) (o : Options) {inLog : Bool} {tokens : List Token}
    (hvalid : ∀ t ∈ tokens, t.Valid) (hplaced : Placed inLog tokens) :
    readTokens text o inLog (tokens.map Token.text) = .ok (tokens.foldl after o) := by
  induction tokens generalizing o inLog with
  | nil => rfl
  | cons t ts ih =>
      rw [List.forall_mem_cons] at hvalid
      rw [List.map_cons, readTokens_cons hvalid.1 hplaced.1, ih _ hvalid.2 hplaced.2]
      rfl

theorem exists_token_of_readTokens {text s : String} {inLog : Bool} {parts : List String}
    (h : readTokens text o inLog (s :: parts) = .ok o') (hcomma : ',' ∉ s.toList) :
    ∃ t : Token, t.Valid ∧ (t.isMore = true → inLog = true) ∧ t.text = s ∧
      readTokens text (o.after t) t.isLog parts = .ok o' := by
  unfold readTokens at h
  split at h
  · cases h
  · split at h
    · rename_i o'' hcontinue
      rw [Option.ite_none_right_eq_some] at hcontinue
      obtain ⟨hin, hlevel⟩ := hcontinue
      obtain ⟨group, level, rfl, rfl⟩ := continueLog?_eq_some_iff.mp hlevel
      exact ⟨.more group level, trivial, fun _ => hin, rfl, h⟩
    · obtain ⟨⟨o'', inLog'⟩, hread, hrest⟩ := of_bind_eq_ok h
      obtain ⟨t, hvalid, hmore, htext, rfl, rfl⟩ := exists_token_of_readToken hread hcomma
      refine ⟨t, hvalid, ?_, htext, hrest⟩
      rw [hmore]
      exact nofun

theorem exists_tokens_of_readTokens {text : String} {inLog : Bool} {parts : List String}
    (h : readTokens text o inLog parts = .ok o') (hcomma : ∀ s ∈ parts, ',' ∉ s.toList) :
    ∃ tokens : List Token, parts = tokens.map Token.text ∧ (∀ t ∈ tokens, t.Valid) ∧
      Placed inLog tokens ∧ o' = tokens.foldl after o := by
  induction parts generalizing o inLog with
  | nil =>
      cases h
      exact ⟨[], rfl, nofun, trivial, rfl⟩
  | cons s parts ih =>
      rw [List.forall_mem_cons] at hcomma
      obtain ⟨t, hvalid, hplace, rfl, hrest⟩ := exists_token_of_readTokens h hcomma.1
      obtain ⟨ts, rfl, hvalids, hplaced, rfl⟩ := ih hrest hcomma.2
      exact ⟨t :: ts, rfl, List.forall_mem_cons.mpr ⟨hvalid, hvalids⟩, ⟨hplace, hplaced⟩, rfl⟩

theorem Spells.fields_eq {text : String} {tokens : List Token} (h : Spells text tokens) :
    Split.fields ',' text = tokens.map Token.text := by
  refine Split.fields_eq_iff.mpr ⟨by simpa using h.ne_nil, ?_, h.text_eq⟩
  intro s hs
  obtain ⟨t, ht, rfl⟩ := List.mem_map.mp hs
  exact Token.comma_not_mem (h.valid t ht)

/-- Reading a text finds the tokens that it consists of. -/
theorem readTokens_fields_iff {text : String} :
    readTokens text {} false (Split.fields ',' text) = .ok o ↔
      ∃ tokens, Spells text tokens ∧ o = meaning tokens := by
  constructor
  · intro h
    obtain ⟨hne, hcomma, htext⟩ := Split.fields_eq_iff.mp (rfl : Split.fields ',' text = _)
    obtain ⟨tokens, hparts, hvalid, hplaced, rfl⟩ := exists_tokens_of_readTokens h hcomma
    rw [hparts] at hne htext
    exact ⟨tokens, ⟨(fun hnil => hne (congrArg _ hnil)), htext, hvalid, hplaced⟩,
      foldl_after tokens⟩
  · rintro ⟨tokens, hspells, rfl⟩
    rw [hspells.fields_eq, readTokens_text text {} hspells.valid hspells.placed, foldl_after]

theorem parse_eq_ok_iff {text : String} :
    parse text = .ok o ↔ ∃ tokens, Denotes text tokens o := by
  unfold parse
  constructor
  · intro h
    obtain ⟨o', hread, h⟩ := of_bind_eq_ok h
    obtain ⟨⟨⟩, hvalid, h⟩ := of_bind_eq_ok h
    cases h
    obtain ⟨tokens, hspells, ho⟩ := readTokens_fields_iff.mp hread
    exact ⟨tokens, hspells, ho, hvalid⟩
  · rintro ⟨tokens, hspells, ho, hvalid⟩
    rw [readTokens_fields_iff.mpr ⟨tokens, hspells, ho⟩]
    change (o.validate >>= fun _ => pure o) = _
    rw [hvalid]
    rfl

end CodeCache.Options
